import Demoos.Fork.CopyProcess

/-!
# The child of a fork

When no page is missing, the child of `copy_process(0, 0, 0)` is its parent again, but for the
register `x0`.  Its pages are its own, and nobody else sees a change.
-/

namespace Demoos

open Function (update update_apply)

namespace Kernel

variable {k k' : Kernel} {result : Int}

/-- The state, as if no page had been missing so far. -/
def refreshed (k : Kernel) : Kernel :=
  { k with memory := { k.memory with ram := { k.memory.ram with exhausted := false } } }

/-- The child is a copy of the process that has called `copy_process`. -/
structure Faithful (k : Kernel) (child : Pid) (k' : Kernel) : Prop where
  memory : k.memory.Replicated k.ipc.currentProcess child k'.memory
  registers : ∀ i < trapFrameWords, k'.trapFrame child i =
    if i = 0 then 0 else k.trapFrame k.ipc.currentProcess i
  messages : k'.ipc.head child = k'.ipc.tail child ∧
    ∀ i < maxMessages, k'.ipc.buffer child i = ⟨0, none, List.replicate 256 0⟩
  files : ∀ fd < maxFilesPerProcess, k'.memory.files child fd = 0
  pendingSignals : (k'.ipc.pcb child).pendingSignals = 0
  priority : (k'.ipc.pcb child).priority = k.ipc.current.priority
  tickets : (k'.ipc.pcb child).tickets = k.ipc.current.tickets
  estBurst : (k'.ipc.pcb child).estBurst = k.ipc.current.estBurst
  queuePriority : (k'.ipc.pcb child).queuePriority = k.ipc.current.queuePriority

theorem orderly_refreshed (h : k.memory.Orderly) : k.refreshed.memory.Orderly :=
  ⟨(h.owned.write (r := k.refreshed.memory.ram) k.memory.object (fun _ hg => hg)
    (fun _ _ _ => rfl) fun _ _ _ => rfl).owned, h.sane⟩

/-- When no page is missing, then there are as many as it takes. -/
theorem spare_of_supply (h : k.memory.Orderly) {x : Nat} {r : Ram} (hx : k.memory.ram.Takes x r)
    (hroom : k.ipc.nProcesses < maxProcesses)
    (hfork : k.refreshed.Forks 0 result k') (hsupply : k'.memory.ram.exhausted = false) :
    r.Spare (copyCost (k.memory.mm k.ipc.currentProcess).nUserPages) := by
  cases hfork with
  | failed hfull =>
      rcases hfull with hzero | hle
      · have hall := (Ram.allocateKernelPage_eq_zero hzero).2
        exact absurd (hall x hx.isPage) hx.free
      · exact absurd hroom (Nat.not_lt.mpr hle)
  | @forks k' y r' _ hy _ hmemory =>
      have horderly := orderly_refreshed h
      have hp : k.refreshed.ipc.currentProcess < k.refreshed.memory.nProcesses :=
        k.agrees ▸ k.registered
      rw [hmemory, Machine.ram_forkedWith] at hsupply
      have hcopied := (horderly.affords_iff hp hy).mp
        (horderly.copied_of_supply hp hy hsupply)
      exact hx.spare_iff.mpr (hy.spare_iff.mp hcopied)

theorem Forks.faithful (hfork : k.Forks 0 result k') (h : k.memory.Orderly) (hne : result ≠ -1)
    {result₀ : Int} {k₀ : Kernel} (hfork₀ : k.refreshed.Forks 0 result₀ k₀)
    (hsupply : k₀.memory.ram.exhausted = false) :
    result = k.ipc.nProcesses ∧ k.Faithful k.ipc.nProcesses k' := by
  cases hfork with
  | failed => exact absurd rfl hne
  | @forks k' x r hroom hx hspawned hmemory hregisters hindices hbuffer =>
      have hspare := spare_of_supply h hx hroom hfork₀ hsupply
      have hp : k.ipc.currentProcess < k.memory.nProcesses := k.agrees ▸ k.registered
      have hreplicated := h.replicated hp hx hspare
      have hfield {α : Type} (f : Proc → α) :
          f (k'.ipc.pcb k.ipc.nProcesses).toProc = f (childPcb k.ipc.current).toProc :=
        congrArg f hspawned.child
      refine ⟨rfl, ?_, fun i _ => ?_, ⟨?_, fun i _ => ?_⟩, fun fd _ => ?_,
        hfield (·.pendingSignals), hfield (·.priority), hfield (·.tickets), hfield (·.estBurst),
        hfield (·.queuePriority)⟩
      · rw [hmemory, ← k.agrees]
        exact hreplicated
      · rw [hregisters, if_neg nofun]
        exact update_apply ..
      · rw [hindices.1, hindices.2]
      · rw [hbuffer]
      · rw [hmemory, ← k.agrees, Machine.files_forkedWith]

/-- A fork for which there are enough pages makes a copy of the process. -/
theorem copyProcess_faithful (h : k.memory.Orderly) (alg : Algorithm) (retFromFork : Nat)
    (hsuccess : (k.copyProcess alg retFromFork 0 0 0).1 ≠ -1)
    (hsupply : (k.refreshed.copyProcess alg retFromFork 0 0 0).2.memory.ram.exhausted = false) :
    (k.copyProcess alg retFromFork 0 0 0).1 = k.ipc.nProcesses ∧
      k.Faithful k.ipc.nProcesses (k.copyProcess alg retFromFork 0 0 0).2 :=
  (k.copyProcess_cases alg retFromFork 0 0 0).faithful h hsuccess
    (k.refreshed.copyProcess_cases alg retFromFork 0 0 0) hsupply

/-! ## A user process that forks -/

def userMemory : Machine :=
  (Transition.exec Machine.proceed Machine.userProcess Machine.boot).getD Machine.boot

theorem orderly_userMemory : userMemory.Orderly := by
  unfold userMemory
  cases hm : Transition.exec Machine.proceed Machine.userProcess Machine.boot with
  | none => exact ⟨Machine.owned_boot, rfl⟩
  | some m => exact Machine.Proceeds.orderly ⟨_, hm⟩

def userScheduler : KState :=
  let start := Demoos.boot fun _ => 0
  (runOps .roundRobin [.copyProcess true, .timerTick] start).getD start

set_option maxRecDepth 100000 in
/-- A kernel thread has moved to user mode. -/
def userKernel : Kernel where
  ipc := withMailboxes userScheduler
  memory := userMemory
  flags := update (fun _ => 0) 1 pfKthread
  cpuContext _ := .zero
  trapFrame _ i := i + 5
  agrees := by decide +kernel
  registered := by decide +kernel

set_option maxRecDepth 100000 in
theorem faithful_userKernel : userKernel.ipc.currentProcess = 1 ∧
    (userKernel.memory.mm 1).nUserPages = maxProcessPages ∧
    (userKernel.copyProcess .roundRobin 0 0 0 0).1 = (2 : Nat) ∧
    userKernel.Faithful 2 (userKernel.copyProcess .roundRobin 0 0 0 0).2 := by
  have hrun : userKernel.ipc.currentProcess = 1 ∧
      (userKernel.memory.mm 1).nUserPages = maxProcessPages ∧
      (userKernel.copyProcess .roundRobin 0 0 0 0).1 = 2 ∧
      (userKernel.refreshed.copyProcess .roundRobin 0 0 0 0).2.memory.ram.exhausted = false := by
    decide +kernel
  obtain ⟨hcurrent, hpages, hresult, hsupply⟩ := hrun
  have hfaithful := copyProcess_faithful orderly_userMemory .roundRobin 0
    (by rw [hresult]; decide) hsupply
  exact ⟨hcurrent, hpages, hfaithful⟩

end Kernel

end Demoos
