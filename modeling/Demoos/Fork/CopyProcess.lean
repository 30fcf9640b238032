import Demoos.Memory.Copies
import Demoos.Scheduler.Scans

/-!
# `copy_process`

The whole of it.  What it does to the scheduler and to the memory is defined there.  Here are
the fields of the child that neither of them has, and the state that all of these are parts of.
-/

namespace Demoos

open Function (update update_self update_of_ne)

/-! ## The part of the scheduler -/

section Scheduler

variable {alg : Algorithm} {s : KState} {page : Bool}

/-- Without a page or a slot, the guard is the only thing that has changed. -/
theorem copyProcess_failed (h : page = false ∨ maxProcesses ≤ s.nProcesses) :
    Demoos.copyProcess alg page s = (-1, preemptDisable s) := by
  have hsame : (preemptDisable s).nProcesses = s.nProcesses := rfl
  unfold Demoos.copyProcess
  dsimp only
  rw [hsame, if_pos h]

/-- A ready process has been registered. -/
structure Added (s : KState) (result : Int) (s' : KState) : Prop where
  result : result = 0
  nProcesses : s'.nProcesses = s.nProcesses + 1
  currentProcess : s'.currentProcess = s.currentProcess
  proc : ∀ q, (s'.pcb q).toProc = (s.pcb q).toProc

theorem toProc_setReady {p : Pid} (h : (s.pcb p).state = .ready) (q : Pid) :
    ((s.setState p .ready).pcb q).toProc = (s.pcb q).toProc := by
  rw [KState.setState, KState.toProc_modify]
  split
  next he => rw [he, ← h]
  next => rfl

theorem added (alg : Algorithm) {p : Pid} (hroom : s.nProcesses < maxProcesses)
    (hp : p < maxProcesses) (hinit : p ≠ initProcess) (hready : (s.pcb p).state = .ready) :
    Added s (addProcessToScheduler alg s p).1 (addProcessToScheduler alg s p).2 := by
  have hroom' : ¬ (maxProcesses ≤ s.nProcesses ∨ maxProcesses ≤ p) :=
    not_or.mpr ⟨Nat.not_le.mpr hroom, Nat.not_le.mpr hp⟩
  unfold addProcessToScheduler
  rw [if_neg hroom']
  dsimp only
  rw [if_pos hready]
  generalize hs₁ : ({ s with
    processes := update s.processes p (some p)
    queueLevel := _ } : KState) = s₁
  have hglobals := (Readied.enqueueProcess alg s₁ p).globals
  have hsame : s₁.nProcesses = s.nProcesses ∧ s₁.currentProcess = s.currentProcess ∧
      s₁.pcb = s.pcb := by
    rw [← hs₁]
    exact ⟨rfl, rfl, rfl⟩
  obtain ⟨hn, hcurrent, hpcb⟩ := hsame
  refine ⟨rfl, ?_, ?_, fun q => ?_⟩
  · exact congrArg (· + 1) ((congrArg Globals.nProcesses hglobals).trans hn)
  · exact (congrArg Globals.currentProcess hglobals).trans hcurrent
  · refine (toProc_enqueueProcess s₁ p alg hinit q).trans ?_
    rw [toProc_setReady (by rw [hpcb]; exact hready), hpcb]

/-- A new process has been registered. -/
structure Spawned (s : KState) (result : Int) (s' : KState) : Prop where
  result : result = s.nProcesses
  nProcesses : s'.nProcesses = s.nProcesses + 1
  currentProcess : s'.currentProcess = s.currentProcess
  child : (s'.pcb s.nProcesses).toProc = (childPcb s.current).toProc

theorem childPcb_preemptDisable (s : KState) :
    childPcb (preemptDisable s).current = childPcb s.current := by
  unfold preemptDisable KState.modify KState.current
  simp [childPcb]

theorem copyProcess_spawned (alg : Algorithm) (hroom : s.nProcesses < maxProcesses)
    (hcurrent : s.currentProcess < s.nProcesses) :
    Spawned s (Demoos.copyProcess alg true s).1 (Demoos.copyProcess alg true s).2 := by
  have hne : s.nProcesses ≠ s.currentProcess := Nat.ne_of_gt hcurrent
  have hfull : ¬ (true = false ∨ maxProcesses ≤ (preemptDisable s).nProcesses) := fun hc =>
    Nat.not_le.mpr hroom (hc.resolve_left nofun)
  unfold Demoos.copyProcess
  dsimp only
  rw [if_neg hfull, childPcb_preemptDisable]
  generalize hs₁ : ({ preemptDisable s with pcb := _ } : KState) = s₁
  have hsame : s₁.nProcesses = s.nProcesses ∧ s₁.currentProcess = s.currentProcess ∧
      s₁.pcb s.nProcesses = childPcb s.current := by
    rw [← hs₁]
    exact ⟨rfl, rfl, update_self ..⟩
  obtain ⟨hn, hcur, hchild⟩ := hsame
  have hadded : Added s₁ (addProcessToScheduler alg s₁ s.nProcesses).1
      (addProcessToScheduler alg s₁ s.nProcesses).2 :=
    added alg (hn ▸ hroom) hroom (Nat.ne_of_gt (Nat.zero_lt_of_lt hcurrent))
      (by rw [hchild]; rfl)
  rw [show (preemptDisable s).nProcesses = s.nProcesses from rfl, hadded.result]
  refine ⟨rfl, ?_, ?_, ?_⟩
  · exact hadded.nProcesses.trans (congrArg (· + 1) hn)
  · exact hadded.currentProcess.trans hcur
  · have hkept : ((preemptEnable (addProcessToScheduler alg s₁ s.nProcesses).2).pcb
        s.nProcesses).toProc =
          ((addProcessToScheduler alg s₁ s.nProcesses).2.pcb s.nProcesses).toProc := by
      rw [preemptEnable, KState.toProc_modify, if_neg]
      rw [hadded.currentProcess, hcur]
      exact hne
    refine hkept.trans ?_
    rw [hadded.proc, hchild]

end Scheduler

/-! ## The part of the memory -/

theorem Machine.nProcesses_copyProcess (m : Machine) (p : Pid) (kernelThread : Bool) :
    (m.copyProcess p kernelThread).2.nProcesses =
      if m.allocate.1 = 0 ∨ maxProcesses ≤ m.nProcesses then m.nProcesses
      else m.nProcesses + 1 := by
  have hsame : m.allocate.2.nProcesses = m.nProcesses := rfl
  unfold Machine.copyProcess
  dsimp only
  rw [hsame]
  split <;> rfl

theorem Machine.forked_of_room {m : Machine}
    (h : ¬ (m.allocate.1 = 0 ∨ maxProcesses ≤ m.nProcesses)) (p : Pid) (kernelThread : Bool) :
    ∃ x r, m.ram.Takes x r ∧
      (m.copyProcess p kernelThread).2 = m.forkedWith p x r kernelThread := by
  have hfork := m.copyProcess_cases p kernelThread
  generalize (m.copyProcess p kernelThread).1 = result at hfork
  generalize (m.copyProcess p kernelThread).2 = m' at hfork ⊢
  cases hfork with
  | failed hfull => exact absurd hfull h
  | forks _ hx => exact ⟨_, _, hx, rfl⟩

/-! ## All parts -/

-- `PF_KTHREAD` and `THREAD_SIZE`.
def pfKthread : BitVec 64 := 2
def threadSize : Nat := 4096

/-- `struct cpu_context`. -/
structure CpuContext where
  x19 : Nat
  x20 : Nat
  x21 : Nat
  x22 : Nat
  x23 : Nat
  x24 : Nat
  x25 : Nat
  x26 : Nat
  x27 : Nat
  x28 : Nat
  fp : Nat
  sp : Nat
  pc : Nat

/-- The context in zeroed memory. -/
def CpuContext.zero : CpuContext := ⟨0, 0, 0, 0, 0, 0, 0, 0, 0, 0, 0, 0, 0⟩

/-- The scheduler with the mailboxes, the memory with the files, and the other fields of the PCBs.
`trapFrame` has the words of `struct pt_regs`. -/
structure Kernel where
  ipc : IpcState
  memory : Machine
  flags : Pid → BitVec 64
  cpuContext : Pid → CpuContext
  trapFrame : Pid → Nat → Nat
  agrees : memory.nProcesses = ipc.nProcesses
  registered : ipc.currentProcess < ipc.nProcesses

namespace Kernel

variable {k : Kernel} {alg : Algorithm} {cloneFlags : BitVec 64}

/-- Init alone. -/
def boot (timer : Nat → BitVec 32) : Kernel where
  ipc := withMailboxes (Demoos.boot timer)
  memory := Machine.boot
  flags _ := 0
  cpuContext _ := .zero
  trapFrame _ _ := 0
  agrees := rfl
  registered := Nat.one_pos

/-- `clone_flags & PF_KTHREAD`. -/
def isKernelThread (cloneFlags : BitVec 64) : Bool := cloneFlags &&& pfKthread != 0

/-- Has `allocate_kernel_page` a page? -/
def hasPage (k : Kernel) : Bool := k.memory.allocate.1 != 0

theorem scheduler_copyProcess (alg : Algorithm) (k : Kernel) :
    (Demoos.copyProcess alg k.hasPage k.ipc.toKState = (-1, preemptDisable k.ipc.toKState) ∧
      (k.memory.allocate.1 = 0 ∨ maxProcesses ≤ k.memory.nProcesses)) ∨
    (Spawned k.ipc.toKState (Demoos.copyProcess alg k.hasPage k.ipc.toKState).1
        (Demoos.copyProcess alg k.hasPage k.ipc.toKState).2 ∧
      ¬ (k.memory.allocate.1 = 0 ∨ maxProcesses ≤ k.memory.nProcesses)) := by
  rw [k.agrees]
  by_cases hfull : k.memory.allocate.1 = 0 ∨ maxProcesses ≤ k.ipc.nProcesses
  · refine .inl ⟨copyProcess_failed (hfull.imp_left fun hzero => ?_), hfull⟩
    exact bne_eq_false_iff_eq.mpr hzero
  · obtain ⟨hne, hroom⟩ := not_or.mp hfull
    rw [show k.hasPage = true from bne_iff_ne.mpr hne]
    exact .inr ⟨copyProcess_spawned alg (Nat.lt_of_not_le hroom) k.registered, hfull⟩

theorem agrees_copyProcess (alg : Algorithm) (k : Kernel) (kernelThread : Bool) :
    (k.memory.copyProcess k.ipc.currentProcess kernelThread).2.nProcesses =
      (Demoos.copyProcess alg k.hasPage k.ipc.toKState).2.nProcesses := by
  rw [Machine.nProcesses_copyProcess]
  rcases k.scheduler_copyProcess alg with ⟨he, hfull⟩ | ⟨hspawned, hfull⟩
  · rw [he, if_pos hfull]
    exact k.agrees
  · rw [if_neg hfull, hspawned.nProcesses, k.agrees]

theorem registered_copyProcess (alg : Algorithm) (k : Kernel) :
    (Demoos.copyProcess alg k.hasPage k.ipc.toKState).2.currentProcess <
      (Demoos.copyProcess alg k.hasPage k.ipc.toKState).2.nProcesses := by
  rcases k.scheduler_copyProcess alg with ⟨he, _⟩ | ⟨hspawned, _⟩
  · rw [he]
    exact k.registered
  · rw [hspawned.currentProcess, hspawned.nProcesses]
    exact Nat.lt_succ_of_lt k.registered

/-- Both parts of `copy_process`. -/
def parts (k : Kernel) (alg : Algorithm) (cloneFlags : BitVec 64) : Int × Kernel :=
  let scheduler := Demoos.copyProcess alg k.hasPage k.ipc.toKState
  let memory := k.memory.copyProcess k.ipc.currentProcess (isKernelThread cloneFlags)
  (scheduler.1, { k with
    ipc := { k.ipc with toKState := scheduler.2 }
    memory := memory.2
    agrees := agrees_copyProcess alg k (isKernelThread cloneFlags)
    registered := registered_copyProcess alg k })

/-- `copy_process`.  The child is in a page that `get_free_page` has zeroed. -/
def copyProcess (k : Kernel) (alg : Algorithm) (retFromFork : Nat) (cloneFlags : BitVec 64)
    (function argument : Nat) : Int × Kernel :=
  let current := k.ipc.currentProcess
  let child := k.ipc.nProcesses
  let childRegisters := k.memory.allocate.1 + threadSize - 8 * trapFrameWords
  let (result, k') := k.parts alg cloneFlags
  if result < 0 then (result, k')
  else
    let context :=
      if isKernelThread cloneFlags then { CpuContext.zero with x19 := function, x20 := argument }
      else CpuContext.zero
    let registers :=
      if isKernelThread cloneFlags then fun _ => 0 else update (k.trapFrame current) 0 0
    (result, { k' with
      ipc := { k'.ipc with
        head := update k.ipc.head child 0
        tail := update k.ipc.tail child 0
        buffer := update k.ipc.buffer child fun _ => ⟨0, none, List.replicate 256 0⟩
        beyond := update k.ipc.beyond child (List.replicate 256 0) }
      flags := update k.flags child cloneFlags
      cpuContext := update k.cpuContext child
        { context with pc := retFromFork, sp := childRegisters }
      trapFrame := update k.trapFrame child registers })

/-- What `copy_process` can do. -/
inductive Forks (k : Kernel) (cloneFlags : BitVec 64) : Int → Kernel → Prop
  | failed {k' : Kernel} (hfull : k.memory.allocate.1 = 0 ∨ maxProcesses ≤ k.ipc.nProcesses)
      (hipc : k'.ipc.toKState = preemptDisable k.ipc.toKState) : Forks k cloneFlags (-1) k'
  | forks {k' : Kernel} {x : Nat} {r : Ram} (hroom : k.ipc.nProcesses < maxProcesses)
      (hx : k.memory.ram.Takes x r)
      (hspawned : Spawned k.ipc.toKState k.ipc.nProcesses k'.ipc.toKState)
      (hmemory : k'.memory =
        k.memory.forkedWith k.ipc.currentProcess x r (isKernelThread cloneFlags))
      (hregisters : k'.trapFrame k.ipc.nProcesses =
        if isKernelThread cloneFlags then fun _ => 0
        else update (k.trapFrame k.ipc.currentProcess) 0 0)
      (hindices : k'.ipc.head k.ipc.nProcesses = 0 ∧ k'.ipc.tail k.ipc.nProcesses = 0)
      (hbuffer : k'.ipc.buffer k.ipc.nProcesses = fun _ => ⟨0, none, List.replicate 256 0⟩) :
      Forks k cloneFlags k.ipc.nProcesses k'

theorem copyProcess_cases (k : Kernel) (alg : Algorithm) (retFromFork : Nat)
    (cloneFlags : BitVec 64) (function argument : Nat) :
    k.Forks cloneFlags (k.copyProcess alg retFromFork cloneFlags function argument).1
      (k.copyProcess alg retFromFork cloneFlags function argument).2 := by
  unfold copyProcess
  dsimp only
  rcases k.scheduler_copyProcess alg with ⟨he, hfull⟩ | ⟨hspawned, hroom⟩
  · have hresult : (k.parts alg cloneFlags).1 = -1 := congrArg Prod.fst he
    rw [hresult, if_pos (by decide)]
    exact .failed (k.agrees ▸ hfull) (congrArg Prod.snd he)
  · have hresult : (k.parts alg cloneFlags).1 = k.ipc.nProcesses := hspawned.result
    have hspawned' := hspawned.result ▸ hspawned
    obtain ⟨x, r, hx, hmemory⟩ := Machine.forked_of_room hroom k.ipc.currentProcess
      (isKernelThread cloneFlags)
    rw [hresult, if_neg (by omega)]
    refine .forks (k.agrees ▸ Nat.lt_of_not_le fun hle => hroom (.inr hle)) hx hspawned' hmemory
      (update_self ..) ⟨update_self .., update_self ..⟩ (update_self ..)

end Kernel

end Demoos
