import Demoos.Fork.Child
import Demoos.Scheduler.Guard

/-!
# A fork that fails

`copy_process` disables the preemption before its tests, and a test that fails returns without
enabling it again.  A copy of the pages that fails is not noticed at all.  So a fork
leaves things in order exactly when it has a slot and all its pages.
-/

namespace Demoos

open Function (update update_self update_of_ne)

namespace Kernel

variable {k k' : Kernel} {cloneFlags : BitVec 64} {result : Int}

/-- The state is as before, as far as the scheduler and the page allocator go. -/
structure Unchanged (k k' : Kernel) : Prop where
  preemptDisabled : k'.ipc.current.preemptDisabled = k.ipc.current.preemptDisabled
  memoryPages : k'.memory.ram.memoryPages = k.memory.ram.memoryPages
  processes : k'.ipc.processes = k.ipc.processes
  nProcesses : k'.ipc.nProcesses = k.ipc.nProcesses
  queue : k'.ipc.queue = k.ipc.queue
  pcb : k'.ipc.pcb = k.ipc.pcb

/-- A fork that fails has changed nothing, and one that does not has copied all pages. -/
def Atomic (k : Kernel) (result : Int) (k' : Kernel) : Prop :=
  (result = -1 → k.Unchanged k') ∧
  (result ≠ -1 → CompleteCopy (k.memory.mm k.ipc.currentProcess) k.memory.ram
    (k'.memory.mm result.toNat) k'.memory.ram)

theorem not_unchanged (h : k'.ipc.toKState = preemptDisable k.ipc.toKState) :
    ¬ k.Unchanged k' := by
  intro hsame
  have hguard := hsame.preemptDisabled
  rw [h, current_preemptDisable] at hguard
  omega

/-- A kernel thread has no pages. -/
theorem completeCopy_emptyMm {mm : MmStruct} {r r' : Ram} :
    CompleteCopy mm r emptyMm r' ↔ mm.nUserPages = 0 := by
  refine ⟨fun h => h.nUserPages.symm, fun h => ?_⟩
  have hnone : ∀ i, ¬ i < mm.nUserPages := fun i hi => Nat.not_lt_zero i (h ▸ hi)
  exact ⟨h.symm, fun i hi => absurd hi (hnone i), fun i hi => absurd hi (hnone i),
    fun i hi => absurd hi (hnone i), fun i hi => absurd hi (Nat.not_lt_zero i),
    fun i hi => absurd hi (Nat.not_lt_zero i)⟩

/-- What a child costs, its PCB apart. -/
theorem childSpace_iff (h : k.memory.Orderly) {x : Nat} {r : Ram} (hx : k.memory.ram.Takes x r)
    (kernelThread : Bool) :
    CompleteCopy (k.memory.mm k.ipc.currentProcess) k.memory.ram
        (k.memory.childSpace k.ipc.currentProcess kernelThread r).1
        (k.memory.childSpace k.ipc.currentProcess kernelThread r).2 ↔
      (kernelThread = true → (k.memory.mm k.ipc.currentProcess).nUserPages = 0) ∧
      r.Spare (copyCost (k.memory.mm k.ipc.currentProcess).nUserPages) := by
  cases kernelThread with
  | true =>
      refine completeCopy_emptyMm.trans ⟨fun hn => ⟨fun _ => hn, ?_⟩, fun hn => hn.1 rfl⟩
      rw [hn]
      exact Ram.spare_zero r
  | false =>
      rw [h.completeCopy_iff (k.agrees ▸ k.registered) hx]
      exact (and_iff_right nofun).symm

theorem Forks.atomic (hfork : k.Forks cloneFlags result k') (h : k.memory.Orderly) :
    Atomic k result k' ↔ k.ipc.nProcesses < maxProcesses ∧
      (isKernelThread cloneFlags = true → (k.memory.mm k.ipc.currentProcess).nUserPages = 0) ∧
      k.memory.ram.Spare (1 + copyCost (k.memory.mm k.ipc.currentProcess).nUserPages) := by
  cases hfork with
  | failed hfull hipc =>
      refine iff_of_false (fun ha => not_unchanged hipc (ha.1 rfl)) fun hroom => ?_
      obtain ⟨hslot, _, hspare⟩ := hroom
      rcases hfull with hzero | hle
      · have hnone := hspare.eq_zero (Ram.allocateKernelPage_eq_zero hzero).2
        omega
      · exact Nat.not_le.mpr hslot hle
  | @forks k' x r hroom hx _ hmemory =>
      have hresult : (k.ipc.nProcesses : Int) ≠ -1 := by omega
      have hchild : Atomic k k.ipc.nProcesses k' ↔
          CompleteCopy (k.memory.mm k.ipc.currentProcess) k.memory.ram
            (k'.memory.mm k.ipc.nProcesses) k'.memory.ram :=
        ⟨fun ha => ha.2 hresult, fun hc => ⟨fun he => absurd he hresult, fun _ => hc⟩⟩
      rw [hchild, hmemory, ← k.agrees, Machine.mm_forkedWith, Machine.ram_forkedWith,
        childSpace_iff h hx, Nat.add_comm 1, hx.spare_iff, k.agrees]
      exact (and_iff_right hroom).symm

/-- A fork is atomic when it has a slot, and the pages that it needs, and when it is not a kernel
thread that the parent could have pages for. -/
theorem atomic_iff (h : k.memory.Orderly) (alg : Algorithm) (retFromFork : Nat)
    (cloneFlags : BitVec 64) (function argument : Nat) :
    Atomic k (k.copyProcess alg retFromFork cloneFlags function argument).1
        (k.copyProcess alg retFromFork cloneFlags function argument).2 ↔
      k.ipc.nProcesses < maxProcesses ∧
      (isKernelThread cloneFlags = true → (k.memory.mm k.ipc.currentProcess).nUserPages = 0) ∧
      k.memory.ram.Spare (1 + copyCost (k.memory.mm k.ipc.currentProcess).nUserPages) :=
  (k.copyProcess_cases alg retFromFork cloneFlags function argument).atomic h

/-- A user process with all of its pages forks. -/
theorem atomic_userKernel : (userKernel.memory.mm userKernel.ipc.currentProcess).nUserPages = 16 ∧
    (userKernel.copyProcess .roundRobin 0 0 0 0).1 = 2 ∧
    Atomic userKernel (userKernel.copyProcess .roundRobin 0 0 0 0).1
      (userKernel.copyProcess .roundRobin 0 0 0 0).2 := by
  have hpages : (userKernel.memory.mm userKernel.ipc.currentProcess).nUserPages = 16 := by
    decide +kernel
  have hroom : userKernel.ipc.nProcesses < maxProcesses := by decide +kernel
  have hresult : (userKernel.copyProcess .roundRobin 0 0 0 0).1 = 2 := by decide +kernel
  have hspare : userKernel.memory.ram.Spare (1 + copyCost 16) := by
    refine Ram.spare_range (k := 1000) (by decide +kernel) ?_
    decide +kernel
  refine ⟨hpages, hresult,
    (atomic_iff orderly_userMemory .roundRobin 0 0 0 0).mpr ⟨hroom, nofun, ?_⟩⟩
  rw [hpages]
  exact hspare

/-- Init, when all pages have been given away. -/
def depleted : Kernel :=
  { boot fun _ => 0 with
    memory := { Machine.boot with ram := { Machine.boot.ram with memoryPages := fun _ => true } }
    agrees := rfl
    registered := Nat.one_pos }

theorem not_atomic_depleted :
    depleted.memory.Orderly ∧
      ¬ Atomic depleted (depleted.copyProcess .roundRobin 0 0 0 0).1
        (depleted.copyProcess .roundRobin 0 0 0 0).2 := by
  have hall : ∀ g, IsPage g → depleted.memory.ram.Taken g := by
    rintro g ⟨i, hi, rfl⟩
    exact (Ram.taken_iff hi).mpr rfl
  have howned : depleted.memory.Owned := by
    refine (Machine.owned_boot.write (r := depleted.memory.ram) Machine.boot.object
      (fun g hg => hall g hg.isPage) (fun _ _ _ => rfl) fun _ _ _ => rfl).owned
  refine ⟨⟨howned, rfl⟩, fun hatomic => ?_⟩
  have hfork := depleted.copyProcess_cases .roundRobin 0 0 0 0
  generalize (depleted.copyProcess .roundRobin 0 0 0 0).1 = result at *
  generalize (depleted.copyProcess .roundRobin 0 0 0 0).2 = k' at *
  cases hfork with
  | failed _ hipc => exact not_unchanged hipc (hatomic.1 rfl)
  | forks _ hx => exact hx.free (hall _ hx.isPage)

end Kernel

end Demoos
