import Demoos.Scheduler.Runs

/-!
# Scans of the process table

The five loops over `processes[]`, with the entries that they dereference.  Four of them
meet existing processes only: they stop at `n_processes`, or they test the entry.  The
loop of `receive_message` does neither.
-/

namespace Demoos

/-! ## What the loops change -/

/-- On the way from `s` to `s'` the processes have at most become ready. -/
structure Readied (s s' : KState) : Prop where
  globals : s'.toGlobals = s.toGlobals
  proc : ∀ p, (s'.pcb p).toProc = (s.pcb p).toProc ∨ (s'.pcb p).state = .ready

namespace Readied

variable {s s' s'' : KState} {p : Pid}

theorem refl (s : KState) : Readied s s := ⟨rfl, fun _ => .inl rfl⟩

theorem trans (h : Readied s s') (h' : Readied s' s'') : Readied s s'' where
  globals := h'.globals.trans h.globals
  proc p := by
    rcases h'.proc p with he | hready
    · rcases h.proc p with he' | hready
      · exact .inl (he.trans he')
      · exact .inr ((congrArg Proc.state he).trans hready)
    · exact .inr hready

theorem setNext (s : KState) (p : Pid) (n : Option Pid) : Readied s (s.setNext p n) :=
  ⟨rfl, fun q => .inl (s.toProc_setNext p q n)⟩

theorem setQueue (h : Readied s s') (l : ReadyList) (e : ProcessQueue) :
    Readied s (s'.setQueue l e) := ⟨h.globals, h.proc⟩

theorem modify (s : KState) (p : Pid) {f : Proc → Proc} (hf : ∀ b, (f b).state = .ready) :
    Readied s (s.modify p f) := by
  refine ⟨rfl, fun q => ?_⟩
  rw [KState.toProc_modify]
  split
  next => exact .inr (hf _)
  next => exact .inl rfl

theorem enqueueProcessTo (s : KState) (l : ReadyList) (p : Pid) :
    Readied s (Demoos.enqueueProcessTo s l p) := by
  unfold Demoos.enqueueProcessTo
  split
  next => exact .refl s
  next =>
    have hnote : Readied s s.noteWrite := ⟨rfl, fun _ => .inl rfl⟩
    have hready := (hnote.trans (.setNext _ p none)).trans
      (.modify _ p (f := fun b => { b with state := .ready }) fun _ => rfl)
    dsimp only
    split
    next => exact hready.setQueue ..
    next t _ => exact (hready.trans (.setNext _ t _)).setQueue ..

theorem linkSorted (s : KState) (l : ReadyList) (p : Pid) : Readied s (Demoos.linkSorted s l p) := by
  unfold Demoos.linkSorted
  split
  next => exact ⟨rfl, fun _ => .inl rfl⟩
  next =>
    split
    next => exact (setNext s p _).setQueue ..
    next =>
      dsimp only
      split
      next => exact ((setNext s p _).trans (.setNext _ _ _)).setQueue ..
      next => exact (setNext s p _).trans (.setNext _ _ _)

theorem enqueueProcess (alg : Algorithm) (s : KState) (p : Pid) :
    Readied s (Demoos.enqueueProcess alg s p) := by
  have hsorted : Readied s (enqueueSortedTo s .readyQueue p) := by
    unfold enqueueSortedTo
    split
    next => exact .refl s
    next =>
      have hnote : Readied s s.noteWrite := ⟨rfl, fun _ => .inl rfl⟩
      exact ((hnote.trans (.setNext _ p none)).trans
        (.modify _ p (f := fun b => { b with state := .ready }) fun _ => rfl)).trans
        (.linkSorted ..)
  unfold Demoos.enqueueProcess
  split
  next => exact .refl s
  next => cases alg with
    | sjf => exact hsorted
    | roundRobin | fcfs | lottery | priorityAging | mlq | mlfq => exact .enqueueProcessTo ..

theorem wakeSlot (alg : Algorithm) (waits : Proc → Bool) (s : KState) (i : Nat) :
    Readied s (Demoos.wakeSlot alg waits Proc.makeReady s i) := by
  unfold Demoos.wakeSlot
  split
  next => exact .refl s
  next p _ =>
    split
    next => exact (modify s p fun _ => rfl).trans (.enqueueProcess ..)
    next => exact .refl s

end Readied

/-! ## Loops that dereference -/

/-- Slot `i` of a loop that tests the entry or does not.  Without the test, the entry must not
be null. -/
def scanSlot (tested : Bool) (body : KState → Pid → KState) (s : KState) (i : Nat) :
    Option KState :=
  match s.processes i with
  | some p => some (body s p)
  | none => if tested then some s else none

/-- The loop over the first `bound` slots. -/
def scan (tested : Bool) (body : KState → Pid → KState) (bound : Nat) (s : KState) :
    Option KState :=
  Transition.exec (scanSlot tested body) (List.range bound) s

/-- The body of the loops that wake. -/
def wakeBody (alg : Algorithm) (waits : Proc → Bool) (wake : Proc → Proc) (s : KState) (p : Pid) :
    KState :=
  if waits (s.pcb p).toProc then enqueueProcess alg (s.modify p wake) p else s

def receiveMessageScan (alg : Algorithm) (s : KState) : Option KState :=
  scan false (wakeBody alg (·.state == .waitingToSendMessage) Proc.makeReady) maxProcesses s

def exitProcessScan (alg : Algorithm) (s : KState) : Option KState :=
  scan true (wakeBody alg (Proc.waitsFor s.currentProcess) Proc.endWait) maxProcesses s

def handleUartIrqScan (alg : Algorithm) (s : KState) : Option KState :=
  scan false (wakeBody alg (·.state == .waitingUartInput) Proc.makeReady) s.nProcesses s

def priorityAgingScan (s : KState) : Option KState :=
  scan true (fun s p => s.modify p Proc.recharge) maxProcesses s

/-- The loop of `search_process`, from the slots `is` on, and what it returns. -/
def searchProcessScan (s : KState) (pid : Int) : List Nat → Option (Option Pid)
  | [] => some none
  | i :: is =>
      match s.processes i with
      | none => searchProcessScan s pid is
      | some p => if (p : Int) = pid then some (some p) else searchProcessScan s pid is

/-- The loops get through without a null entry. -/
structure Scanned (alg : Algorithm) (s : KState) : Prop where
  receiveMessage : receiveMessageScan alg s = some (wakeSenders alg s)
  exitProcess : exitProcessScan alg s =
    some (wakeAll alg (Proc.waitsFor s.currentProcess) Proc.endWait maxProcesses s)
  handleUartIrq : handleUartIrqScan alg s =
    some (wakeAll alg (·.state == .waitingUartInput) Proc.makeReady s.nProcesses s)
  priorityAging : priorityAgingScan s = some (rechargeAll s)
  searchProcess : ∀ pid,
    searchProcessScan s pid (List.range maxProcesses) = some (Demoos.searchProcess s pid)

variable {alg : Algorithm} {s t : KState} {waits : Proc → Bool} {wake : Proc → Proc} {n : Nat}

theorem scanSlot_wakeBody {tested : Bool} {i : Nat} (h : tested = true ∨ s.processes i ≠ none) :
    scanSlot tested (wakeBody alg waits wake) s i = some (wakeSlot alg waits wake s i) := by
  unfold scanSlot wakeSlot wakeBody
  cases hp : s.processes i with
  | none => rw [h.resolve_right fun hne => hne hp]; rfl
  | some p => rfl

/-- A loop that tests its entries. -/
theorem scan_tested : scan true (wakeBody alg waits wake) n s = some (wakeAll alg waits wake n s) :=
  Transition.exec_eq_foldl (I := fun _ => True)
    (fun _ _ _ _ => ⟨scanSlot_wakeBody (.inl rfl), trivial⟩) trivial

/-- A loop that stops in time. -/
theorem scan_occupied (h : ∀ i < n, s.processes i ≠ none) :
    scan false (wakeBody alg waits Proc.makeReady) n s =
      some (wakeAll alg waits Proc.makeReady n s) := by
  refine Transition.exec_eq_foldl (I := fun t => t.processes = s.processes) (fun i hi t ht => ?_) rfl
  refine ⟨scanSlot_wakeBody (.inr ?_), ?_⟩
  · rw [ht]
    exact h i (List.mem_range.mp hi)
  · rw [(Readied.wakeSlot alg waits t i).globals]
    exact ht

/-- A loop that gets through has met no null entry. -/
theorem occupied_of_exec {is : List Nat}
    (h : Transition.exec (scanSlot false (wakeBody alg waits Proc.makeReady)) is s = some t) :
    ∀ i ∈ is, s.processes i ≠ none := by
  induction is generalizing s with
  | nil => exact fun i hi => absurd hi List.not_mem_nil
  | cons i is ih =>
      obtain ⟨u, hu, hrest⟩ := Option.bind_eq_some_iff.mp h
      have hi : s.processes i ≠ none := by
        intro hnone
        unfold scanSlot at hu
        rw [hnone] at hu
        exact absurd hu nofun
      rw [scanSlot_wakeBody (.inr hi)] at hu
      obtain rfl := Option.some.inj hu
      intro j hj
      rcases List.mem_cons.mp hj with rfl | hj
      · exact hi
      · have hkeep := ih hrest j hj
        rwa [(Readied.wakeSlot alg waits s i).globals] at hkeep

theorem priorityAgingScan_eq : priorityAgingScan s = some (rechargeAll s) := by
  refine Transition.exec_eq_foldl (I := fun _ => True) (fun i _ t _ => ⟨?_, trivial⟩) trivial
  unfold scanSlot
  cases t.processes i <;> rfl

theorem searchProcessScan_eq (pid : Int) (is : List Nat) :
    searchProcessScan s pid is = some ((is.find? (slotHolds s pid)).bind s.processes) := by
  induction is with
  | nil => rfl
  | cons i is ih =>
      rw [searchProcessScan]
      cases hp : s.processes i with
      | none =>
          have hnot : ¬ slotHolds s pid i = true := by
            rw [slotHolds, hp]
            exact Bool.false_ne_true
          rw [List.find?_cons_of_neg hnot]
          exact ih
      | some p =>
          dsimp only
          have hholds : slotHolds s pid i = ((p : Int) == pid) := by rw [slotHolds, hp]
          split
          next he =>
            rw [List.find?_cons_of_pos (by rw [hholds]; exact beq_iff_eq.mpr he)]
            exact congrArg some hp.symm
          next hne =>
            rw [List.find?_cons_of_neg (by rw [hholds]; exact fun he => hne (beq_iff_eq.mp he))]
            exact ih

/-- Processes have the first slots of the table. -/
theorem Reachable.occupied (h : Reachable alg s) (i : Nat) :
    s.processes i ≠ none ↔ i < s.nProcesses := by
  obtain ⟨a, ha⟩ := h.represents
  rw [ha.refines.globals, ha.law.table]
  split
  next hlt => exact ⟨fun _ => hlt, fun _ => nofun⟩
  next hge => exact ⟨fun hne => absurd rfl hne, fun hlt => absurd hlt hge⟩

/-- All loops meet processes only exactly when the table is full. -/
theorem scanned_iff (h : Reachable alg s) : Scanned alg s ↔ s.nProcesses = maxProcesses := by
  obtain ⟨a, ha⟩ := h.represents
  have hbound : s.nProcesses ≤ maxProcesses := by
    rw [ha.refines.globals]
    exact ha.law.bound
  constructor
  · intro hs
    have hlast :=
      occupied_of_exec hs.receiveMessage (maxProcesses - 1) (List.mem_range.mpr (by decide))
    have := (h.occupied _).mp hlast
    omega
  · intro hfull
    refine ⟨scan_occupied fun i hi => ?_, scan_tested, scan_occupied fun i hi => ?_,
      priorityAgingScan_eq, fun pid => searchProcessScan_eq pid _⟩
    · exact (h.occupied i).mpr (by omega)
    · exact (h.occupied i).mpr hi

/-- Init has made as many children as there is room for. -/
theorem scanned_full : ∃ s, afterBoot .fcfs (List.replicate 63 (.copyProcess true)) = some s ∧
    Scanned .fcfs s := by
  obtain ⟨s, hs, hreach, hfull⟩ := exists_afterBoot .fcfs (List.replicate 63 (.copyProcess true))
    (fun s => s.nProcesses = maxProcesses) (by decide +kernel)
  exact ⟨s, hs, (scanned_iff hreach).mpr hfull⟩

/-- With two children, `receive_message` comes to an empty slot. -/
theorem not_scanned_children : ∃ s, afterBoot .fcfs [.copyProcess true, .copyProcess true] = some s ∧
    Reachable .fcfs s ∧ ¬ Scanned .fcfs s := by
  obtain ⟨s, hs, hreach, hnone⟩ := exists_afterBoot .fcfs [.copyProcess true, .copyProcess true]
    (fun s => s.processes 3 = none) (by decide +kernel)
  exact ⟨s, hs, hreach, fun h =>
    occupied_of_exec h.receiveMessage 3 (List.mem_range.mpr (by decide)) hnone⟩

end Demoos
