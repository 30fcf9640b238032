import Demoos.Scheduler.Idle

/-!
# The critical-section guard

`preempt_disabled` is a counter that each path has to honour by itself.  The
history `queueWrites` records its value, for the current process, at every write
to a ready queue, and `GuardedSince` says that all writes of an operation found
it positive.  Everything between a `preempt_disable` and its `preempt_enable`
is `Steady`: it neither changes the counter nor the current process, so the
writes in between find one value.  Nor does it let a process wait: that takes
an assignment in process context.

Two paths of process context write without the guard, the wake-ups of
`push_message` and of `receive_message`.  Two interrupts write under the guard
of the process they interrupt: the MLFQ boost, which runs in front of the test
of the counter, and the UART handler, which has no such test.
-/

namespace Demoos

open Function (update update_apply)

/-! ## Steady changes -/

/-- The guard stays, and the process does not begin to wait. -/
structure Proc.Steady (b b' : Proc) : Prop where
  guard : b'.preemptDisabled = b.preemptDisabled
  waits : b'.state.blocked = true → b'.state = b.state

namespace Proc.Steady

variable {b c d : Proc}

theorem of_state (hg : c.preemptDisabled = b.preemptDisabled) (hs : c.state = b.state) :
    b.Steady c := ⟨hg, fun _ => hs⟩

theorem refl (b : Proc) : b.Steady b := of_state rfl rfl

theorem trans (h : b.Steady c) (h' : c.Steady d) : b.Steady d where
  guard := h'.guard.trans h.guard
  waits hw := by
    have hs := h'.waits hw
    exact hs.trans (h.waits (hs ▸ hw))

theorem makeReady (b : Proc) : b.Steady b.makeReady := ⟨rfl, fun h => absurd h Bool.false_ne_true⟩

theorem endWait (b : Proc) : b.Steady b.endWait := ⟨rfl, fun h => absurd h Bool.false_ne_true⟩

end Proc.Steady

/-- A change that keeps the current process and is steady for every process, and
whose queue writes all find the guard of the current process. -/
structure Steady (s s' : KState) : Prop where
  currentProcess : s'.currentProcess = s.currentProcess
  processes : s'.processes = s.processes
  proc : ∀ p, (s.pcb p).toProc.Steady (s'.pcb p).toProc
  writes : ∃ ws, s'.queueWrites = ws ++ s.queueWrites ∧
    ∀ g ∈ ws, g = s.current.preemptDisabled

namespace Steady

variable {s t u : KState}

/-- A change that writes no queue. -/
theorem of_eq (hc : t.currentProcess = s.currentProcess) (hp : t.processes = s.processes)
    (hproc : ∀ p, (s.pcb p).toProc.Steady (t.pcb p).toProc)
    (hw : t.queueWrites = s.queueWrites) : Steady s t :=
  ⟨hc, hp, hproc, [], hw, fun _ h => absurd h List.not_mem_nil⟩

theorem refl (s : KState) : Steady s s := of_eq rfl rfl (fun _ => .refl _) rfl

theorem guard (h : Steady s t) (p : Pid) : (t.pcb p).preemptDisabled = (s.pcb p).preemptDisabled :=
  (h.proc p).guard

theorem current (h : Steady s t) : t.current.preemptDisabled = s.current.preemptDisabled := by
  rw [KState.current, h.currentProcess, h.guard]
  rfl

theorem trans (h : Steady s t) (h' : Steady t u) : Steady s u where
  currentProcess := h'.currentProcess.trans h.currentProcess
  processes := h'.processes.trans h.processes
  proc p := (h.proc p).trans (h'.proc p)
  writes := by
    obtain ⟨ws, hw, hg⟩ := h.writes
    obtain ⟨ws', hw', hg'⟩ := h'.writes
    refine ⟨ws' ++ ws, by rw [hw', hw, List.append_assoc], fun g hmem => ?_⟩
    rcases List.mem_append.mp hmem with hmem | hmem
    · rw [hg' g hmem, h.current]
    · exact hg g hmem

theorem modify (s : KState) (p : Pid) {f : Proc → Proc} (hf : ∀ b : Proc, b.Steady (f b)) :
    Steady s (s.modify p f) := by
  refine of_eq rfl rfl (fun q => ?_) rfl
  rw [KState.toProc_modify]
  split
  next => exact hf _
  next => exact .refl _

/-- A write of a field that is neither the guard nor the state. -/
theorem modify_field (s : KState) (p : Pid) {f : Proc → Proc}
    (hg : ∀ b, (f b).preemptDisabled = b.preemptDisabled) (hs : ∀ b, (f b).state = b.state) :
    Steady s (s.modify p f) := modify s p fun b => .of_state (hg b) (hs b)

theorem setState (s : KState) (p : Pid) {st : ProcessState} (hst : st.blocked = false) :
    Steady s (s.setState p st) :=
  modify s p fun _ => ⟨rfl, fun h => absurd (hst.symm.trans h) Bool.false_ne_true⟩

theorem setNext (s : KState) (p : Pid) (n : Option Pid) : Steady s (s.setNext p n) :=
  of_eq rfl rfl (fun q => by rw [KState.toProc_setNext]; exact .refl _) rfl

theorem setQueue (s : KState) (l : ReadyList) (e : ProcessQueue) : Steady s (s.setQueue l e) :=
  of_eq rfl rfl (fun _ => .refl _) rfl

theorem noteWrite (s : KState) : Steady s s.noteWrite where
  currentProcess := rfl
  processes := rfl
  proc _ := .refl _
  writes := ⟨[s.current.preemptDisabled], rfl, fun _ h => List.mem_singleton.mp h⟩

end Steady

section Queues

open Steady

variable (s : KState) (l : ReadyList) (p : Pid) (alg : Algorithm)

theorem steady_enqueueProcessTo : Steady s (enqueueProcessTo s l p) := by
  unfold enqueueProcessTo
  split
  next => exact .refl s
  next =>
    have hready : Steady (s.noteWrite.setNext p none)
        ((s.noteWrite.setNext p none).setState p .ready) := setState _ p rfl
    refine (noteWrite s).trans ((setNext _ p none).trans (hready.trans ?_))
    dsimp only
    split
    next => exact setQueue _ _ _
    next => exact (setNext _ _ _).trans (setQueue _ _ _)

theorem steady_linkSorted : Steady s (linkSorted s l p) := by
  unfold linkSorted
  split
  next => exact setQueue _ _ _
  next =>
    split
    next => exact (setNext _ _ _).trans (setQueue _ _ _)
    next =>
      dsimp only
      split
      next => exact ((setNext _ _ _).trans (setNext _ _ _)).trans (setQueue _ _ _)
      next => exact (setNext _ _ _).trans (setNext _ _ _)

theorem steady_enqueueSortedTo : Steady s (enqueueSortedTo s l p) := by
  unfold enqueueSortedTo
  split
  next => exact .refl s
  next =>
    exact (noteWrite s).trans ((setNext _ p none).trans ((setState _ p rfl).trans
      (steady_linkSorted _ _ _)))

theorem steady_dequeueProcessFrom : Steady s (dequeueProcessFrom s l).2 := by
  unfold dequeueProcessFrom
  split
  next => exact .refl s
  next =>
    refine (noteWrite s).trans ?_
    dsimp only
    split
    next => exact (setQueue _ _ _).trans (setNext _ _ _)
    next => exact (setQueue _ _ _).trans (setNext _ _ _)

theorem steady_removeProcessFrom (previous : Option Pid) :
    Steady s (removeProcessFrom s l previous p) := by
  unfold removeProcessFrom
  cases previous with
  | none =>
      dsimp only
      split
      next =>
        exact (noteWrite s).trans ((setQueue _ _ _).trans ((setQueue _ _ _).trans (setNext _ _ _)))
      next => exact (noteWrite s).trans ((setQueue _ _ _).trans (setNext _ _ _))
  | some v =>
      dsimp only
      split
      next =>
        exact (noteWrite s).trans ((setNext _ _ _).trans ((setQueue _ _ _).trans (setNext _ _ _)))
      next => exact (noteWrite s).trans ((setNext _ _ _).trans (setNext _ _ _))

theorem steady_algEnqueue : Steady s (alg.enqueue s p) := by
  cases alg with
  | sjf => exact steady_enqueueSortedTo s _ p
  | _ => exact steady_enqueueProcessTo s _ p

theorem steady_enqueueProcess : Steady s (enqueueProcess alg s p) := by
  unfold enqueueProcess
  split
  next => exact .refl s
  next => exact steady_algEnqueue s p alg

/-- An insertion is a write. -/
theorem queueWrites_enqueueProcess (hp : p ≠ initProcess) :
    (enqueueProcess alg s p).queueWrites = s.current.preemptDisabled :: s.queueWrites := by
  have hto : ∀ l, (enqueueProcessTo s l p).queueWrites =
      s.current.preemptDisabled :: s.queueWrites := by
    intro l
    simp only [enqueueProcessTo, if_neg hp]
    split <;> rfl
  have hsorted : ∀ l, (enqueueSortedTo s l p).queueWrites =
      s.current.preemptDisabled :: s.queueWrites := by
    intro l
    simp only [enqueueSortedTo, if_neg hp, linkSorted]
    split
    next => rfl
    next =>
      split
      next => rfl
      next => split <;> rfl
  rw [enqueueProcess, if_neg hp]
  cases alg with
  | sjf => exact hsorted _
  | _ => exact hto _

theorem steady_handleProcessSignals : Steady s (handleProcessSignals alg s p) := by
  have hclear : ∀ (s : KState) k, Steady s (s.modify p (·.clearSignal k)) :=
    fun s k => modify_field s p (fun _ => rfl) fun _ => rfl
  unfold handleProcessSignals
  dsimp only
  split
  next => exact .refl s
  next =>
    split
    next => exact (setState _ _ rfl).trans (hclear _ _)
    next =>
      split
      next => exact (setState _ _ rfl).trans (hclear _ _)
      next =>
        split
        next =>
          split
          next => exact (hclear _ _).trans ((setState _ _ rfl).trans (steady_enqueueProcess _ _ _))
          next => exact hclear _ _
        next => exact .refl s

theorem steady_setCounter (c : Int) : Steady s (setCounter s p c) :=
  modify_field s p (fun _ => rfl) fun _ => rfl

theorem steady_requeueCurrent {enqueue : KState → Pid → KState}
    (he : ∀ s p, Steady s (enqueue s p)) : Steady s (requeueCurrent enqueue s) := by
  unfold requeueCurrent
  split
  next => exact he _ _
  next => exact .refl s

theorem steady_dequeueReady (fuel : Nat) : Steady s (dequeueReady alg l fuel s).2 := by
  induction fuel generalizing s with
  | zero => exact .refl s
  | succ n ih =>
      have hdequeue := steady_dequeueProcessFrom s l
      rw [dequeueReady]
      split
      next hd => rw [hd] at hdequeue; exact hdequeue
      next p t hd =>
        rw [hd] at hdequeue
        have hhandle := hdequeue.trans (steady_handleProcessSignals t p alg)
        dsimp only
        split
        next => exact hhandle
        next => exact hhandle.trans (ih _)

theorem steady_scanLevels (qs : List Int) : Steady s (scanLevels alg qs s).2 := by
  induction qs generalizing s with
  | nil => exact .refl s
  | cons q qs ih =>
      have hready := steady_dequeueReady s (.mlQueues q) alg maxProcesses
      rw [scanLevels]
      split
      next hd => rw [hd] at hready; exact hready
      next hd => rw [hd] at hready; exact hready.trans (ih _)

theorem steady_lotteryRandom : Steady s (lotteryRandom s).2 := of_eq rfl rfl (fun _ => .refl _) rfl

theorem steady_drawTicket (fuel : Nat) : Steady s (drawTicket alg fuel s).2 := by
  induction fuel generalizing s with
  | zero => exact .refl s
  | succ n ih =>
      rw [drawTicket]
      dsimp only
      split
      next => exact .refl s
      next =>
        have hrandom := steady_lotteryRandom s
        split
        next => exact hrandom
        next previous p hw =>
          have hremove := hrandom.trans (steady_removeProcessFrom _ .readyQueue p previous)
          have hhandle := hremove.trans (steady_handleProcessSignals _ p alg)
          split
          next => exact hhandle
          next => exact hhandle.trans (ih _)

theorem steady_agingWalk (fuel : Nat) (previous node : Option Pid) (b : Best) :
    Steady s (agingWalk alg fuel s previous node b).2 := by
  induction fuel generalizing s previous node b with
  | zero => exact .refl s
  | succ n ih =>
      cases node with
      | none => exact .refl s
      | some p =>
          have hhandle := steady_handleProcessSignals s p alg
          rw [agingWalk]
          split
          next => exact hhandle.trans ((steady_removeProcessFrom _ _ _ _).trans (ih _ _ _ _))
          next =>
            split
            next => exact hhandle.trans (ih _ _ _ _)
            next => exact hhandle.trans (ih _ _ _ _)

/-- The steps of a loop over `processes[]`. -/
theorem steady_foldl {f : KState → Nat → KState} (hf : ∀ s i, Steady s (f s i)) (is : List Nat) :
    Steady s (is.foldl f s) := by
  induction is generalizing s with
  | nil => exact .refl s
  | cons i is ih => exact (hf s i).trans (ih _)

theorem steady_rechargeAll : Steady s (rechargeAll s) := by
  refine steady_foldl s (fun s i => ?_) _
  split
  next => exact .refl s
  next => exact modify_field _ _ (fun _ => rfl) fun _ => rfl

theorem steady_agingSelect (fuel : Nat) {r : Option Pid × KState}
    (h : agingSelect alg fuel s = some r) : Steady s r.2 := by
  induction fuel generalizing s with
  | zero => exact absurd h (by simp [agingSelect])
  | succ n ih =>
      have hwalk :=
        steady_agingWalk s alg maxProcesses none (s.queue .readyQueue).head ⟨none, none, 0⟩
      rw [agingSelect] at h
      split at h
      next hw =>
        rw [hw] at hwalk
        rw [← Option.some.inj h]
        exact hwalk.trans (steady_removeProcessFrom _ _ _ _)
      next hw =>
        rw [hw] at hwalk
        split at h
        next => rw [← Option.some.inj h]; exact hwalk
        next => exact hwalk.trans ((steady_rechargeAll _).trans (ih _ h))

end Queues

/-! ## Decisions -/

/-- All queue writes between two states have found a positive guard. -/
def GuardedSince (s s' : KState) : Prop :=
  ∃ ws, s'.queueWrites = ws ++ s.queueWrites ∧ ∀ g ∈ ws, 0 < g

/-- The current process has closed what it opened, and every other process left
the CPU inside a critical section of the scheduler. -/
structure Guarded (s : KState) : Prop where
  current : 0 ≤ s.current.preemptDisabled
  others : ∀ p, s.processes p = some p → p ≠ s.currentProcess → 1 ≤ (s.pcb p).preemptDisabled

section Decisions

variable {s t u : KState} {alg : Algorithm}

theorem GuardedSince.of_eq (h : t.queueWrites = s.queueWrites) : GuardedSince s t :=
  ⟨[], h, fun _ h => absurd h List.not_mem_nil⟩

theorem GuardedSince.trans (h : GuardedSince s t) (h' : GuardedSince t u) : GuardedSince s u := by
  obtain ⟨ws, hw, hg⟩ := h
  obtain ⟨ws', hw', hg'⟩ := h'
  refine ⟨ws' ++ ws, by rw [hw', hw, List.append_assoc], fun g hmem => ?_⟩
  exact (List.mem_append.mp hmem).elim (hg' g) (hg g)

theorem Steady.guardedSince (h : Steady s t) (hg : 0 < s.current.preemptDisabled) :
    GuardedSince s t := by
  obtain ⟨ws, hw, hws⟩ := h.writes
  exact ⟨ws, hw, fun g hmem => by rw [hws g hmem]; exact hg⟩

/-- A change that keeps the current process, the table and every guard. -/
structure SameGuards (s t : KState) : Prop where
  currentProcess : t.currentProcess = s.currentProcess
  processes : t.processes = s.processes
  guard : ∀ p, (t.pcb p).preemptDisabled = (s.pcb p).preemptDisabled

theorem SameGuards.trans (h : SameGuards s t) (h' : SameGuards t u) : SameGuards s u where
  currentProcess := h'.currentProcess.trans h.currentProcess
  processes := h'.processes.trans h.processes
  guard p := (h'.guard p).trans (h.guard p)

theorem Steady.sameGuards (h : Steady s t) : SameGuards s t :=
  ⟨h.currentProcess, h.processes, h.guard⟩

theorem Guarded.same (hs : Guarded s) (h : SameGuards s t) : Guarded t where
  current := by rw [KState.current, h.currentProcess, h.guard]; exact hs.current
  others p hp hne := by
    rw [h.processes] at hp
    rw [h.currentProcess] at hne
    rw [h.guard]
    exact hs.others p hp hne

theorem guard_modify (s : KState) (p q : Pid) (f : Proc → Proc) :
    ((s.modify p f).pcb q).preemptDisabled =
      if q = p then (f (s.pcb q).toProc).preemptDisabled else (s.pcb q).preemptDisabled := by
  refine (congrArg Proc.preemptDisabled (KState.toProc_modify s p q f)).trans ?_
  split <;> rfl

theorem sameGuards_modify (s : KState) (p : Pid) {f : Proc → Proc}
    (hf : ∀ b, (f b).preemptDisabled = b.preemptDisabled) : SameGuards s (s.modify p f) := by
  refine ⟨rfl, rfl, fun q => (guard_modify s p q f).trans ?_⟩
  split
  next => exact hf _
  next => rfl

theorem guard_preemptDisable (s : KState) (q : Pid) :
    ((preemptDisable s).pcb q).preemptDisabled = (s.pcb q).preemptDisabled +
      if q = s.currentProcess then 1 else 0 := by
  refine (guard_modify _ _ _ _).trans ?_
  split
  next => rfl
  next => exact (Int.add_zero _).symm

theorem guard_preemptEnable (s : KState) (q : Pid) :
    ((preemptEnable s).pcb q).preemptDisabled = (s.pcb q).preemptDisabled -
      if q = s.currentProcess then 1 else 0 := by
  refine (guard_modify _ _ _ _).trans ?_
  split
  next => rfl
  next => exact (Int.sub_zero _).symm

theorem state_modify (s : KState) (p q : Pid) {f : Proc → Proc} (hf : ∀ b, (f b).state = b.state) :
    ((s.modify p f).pcb q).state = (s.pcb q).state := by
  refine (congrArg Proc.state (KState.toProc_modify s p q f)).trans ?_
  split
  next => exact hf _
  next => rfl

theorem state_preemptDisable (s : KState) (q : Pid) :
    ((preemptDisable s).pcb q).state = (s.pcb q).state := state_modify s _ q fun _ => rfl

theorem state_preemptEnable (s : KState) (q : Pid) :
    ((preemptEnable s).pcb q).state = (s.pcb q).state := state_modify s _ q fun _ => rfl

theorem current_preemptDisable (s : KState) :
    (preemptDisable s).current.preemptDisabled = s.current.preemptDisabled + 1 := by
  refine (guard_preemptDisable s s.currentProcess).trans ?_
  rw [if_pos rfl]
  rfl

/-- A steady change inside a critical section. -/
theorem Steady.bracket (h : Steady (preemptDisable s) t) (hs : 0 ≤ s.current.preemptDisabled) :
    GuardedSince s t := by
  refine GuardedSince.trans (.of_eq rfl) (h.guardedSince ?_)
  rw [current_preemptDisable]
  omega

theorem Steady.guard_bracket (h : Steady (preemptDisable s) t) (p : Pid) :
    (t.pcb p).preemptDisabled = (s.pcb p).preemptDisabled +
      if p = s.currentProcess then 1 else 0 := by
  rw [h.guard, guard_preemptDisable]

theorem Steady.waits_bracket (h : Steady (preemptDisable s) t) (p : Pid)
    (hw : ((preemptEnable t).pcb p).state.blocked = true) :
    ((preemptEnable t).pcb p).state = (s.pcb p).state := by
  rw [state_preemptEnable] at hw ⊢
  exact ((h.proc p).waits hw).trans (state_preemptDisable s p)

theorem switchToProcess_frame (s : KState) (next p : Pid) :
    (switchToProcess s next).currentProcess = next ∧
      (switchToProcess s next).processes = s.processes ∧
      (switchToProcess s next).queueWrites = s.queueWrites ∧
      ((switchToProcess s next).pcb p).preemptDisabled = (s.pcb p).preemptDisabled := by
  have hset : ∀ (s : KState) q st, ((s.setState q st).pcb p).preemptDisabled =
      (s.pcb p).preemptDisabled := by
    intro s q st
    refine (guard_modify s q p _).trans ?_
    split <;> rfl
  unfold switchToProcess
  dsimp only
  split
  next he => exact ⟨he, rfl, rfl, hset _ _ _⟩
  next =>
    split
    next => exact ⟨rfl, rfl, rfl, (hset _ _ _).trans (hset _ _ _)⟩
    next => exact ⟨rfl, rfl, rfl, hset _ _ _⟩

/-- A switch writes states nobody waits in. -/
theorem waits_switchToProcess (s : KState) (next p : Pid)
    (hw : ((switchToProcess s next).pcb p).state.blocked = true) :
    ((switchToProcess s next).pcb p).state = (s.pcb p).state := by
  have hset : ∀ (s : KState) q {st}, st.blocked = false →
      (s.pcb p).toProc.Steady ((s.setState q st).pcb p).toProc :=
    fun s q st hst => (Steady.setState s q hst).proc p
  refine Proc.Steady.waits ?_ hw
  unfold switchToProcess
  dsimp only
  split
  next => exact hset _ _ rfl
  next =>
    split
    next => exact (hset s next rfl).trans (hset _ _ rfl)
    next => exact hset s next rfl

/-- A decision: it writes the queues under the guard of the outgoing process,
which stays up, and takes down the guard of the incoming one. -/
structure Switched (s s' : KState) : Prop where
  processes : s'.processes = s.processes
  guard : ∀ p, (s'.pcb p).preemptDisabled = (s.pcb p).preemptDisabled +
    (if p = s.currentProcess then 1 else 0) - if p = s'.currentProcess then 1 else 0
  waits : ∀ p, (s'.pcb p).state.blocked = true → (s'.pcb p).state = (s.pcb p).state
  writes : 0 ≤ s.current.preemptDisabled → GuardedSince s s'

theorem Steady.switched (h : Steady (preemptDisable s) t) (next : Pid) :
    Switched s (preemptEnable (switchToProcess t next)) := by
  have hframe := switchToProcess_frame t next
  refine ⟨?_, fun p => ?_, fun p hw => ?_, fun hg => ?_⟩
  · exact (hframe initProcess).2.1.trans h.processes
  · rw [guard_preemptEnable, (hframe p).2.2.2, h.guard_bracket]
    rfl
  · rw [state_preemptEnable] at hw ⊢
    have hswitch := waits_switchToProcess t next p hw
    rw [hswitch] at hw ⊢
    exact ((h.proc p).waits hw).trans (state_preemptDisable s p)
  · refine (h.bracket hg).trans (.of_eq ?_)
    exact (hframe initProcess).2.2.1

theorem steady_outgoing (s : KState) (enqueue : KState → Pid → KState)
    (he : ∀ s p, Steady s (enqueue s p)) :
    Steady (preemptDisable s) (requeueCurrent enqueue (preemptDisable s)) :=
  steady_requeueCurrent _ he

theorem switched_scheduleRoundRobin (alg : Algorithm) (s : KState) :
    Switched s (scheduleRoundRobin alg s) := by
  have hready := (steady_outgoing s enqueueFifo fun s p => steady_enqueueProcessTo s _ p).trans
    (steady_dequeueReady _ .readyQueue alg maxProcesses)
  unfold scheduleRoundRobin selectRoundRobin
  dsimp only
  split
  next hs => rw [hs] at hready; exact hready.switched _
  next hs => rw [hs] at hready; exact (hready.trans (steady_setCounter _ _ _)).switched _

theorem switched_scheduleQueueHead (alg : Algorithm) (s : KState) :
    Switched s (scheduleQueueHead alg s) := by
  have hready := (steady_outgoing s alg.enqueue fun s p => steady_algEnqueue s p alg).trans
    (steady_dequeueReady _ .readyQueue alg maxProcesses)
  unfold scheduleQueueHead selectQueueHead
  dsimp only
  split
  next hs => rw [hs] at hready; exact hready.switched _
  next hs => rw [hs] at hready; exact hready.switched _

theorem switched_scheduleMultilevel (alg : Algorithm) (policy : MultilevelPolicy) (s : KState) :
    Switched s (scheduleMultilevel alg policy s) := by
  have hscan := (steady_outgoing s enqueueMultilevel
    fun s p => steady_enqueueProcessTo s _ p).trans (steady_scanLevels _ alg policy.levels)
  unfold scheduleMultilevel selectMultilevel
  dsimp only
  split
  next hs => rw [hs] at hscan; exact hscan.switched _
  next hs => rw [hs] at hscan; exact (hscan.trans (steady_setCounter _ _ _)).switched _

theorem switched_scheduleLottery (alg : Algorithm) (s : KState) :
    Switched s (scheduleLottery alg s) := by
  have hdraw := (steady_outgoing s enqueueFifo fun s p => steady_enqueueProcessTo s _ p).trans
    (steady_drawTicket _ alg maxProcesses)
  unfold scheduleLottery selectLottery
  dsimp only
  split
  next hs => rw [hs] at hdraw; exact hdraw.switched _
  next hs => rw [hs] at hdraw; exact (hdraw.trans (steady_setCounter _ _ _)).switched _

theorem switched_schedulePriorityAging {s' : KState} (h : schedulePriorityAging alg s = some s') :
    Switched s s' := by
  obtain ⟨r, hr, rfl⟩ := Option.map_eq_some_iff.mp h
  obtain ⟨w, hs, rfl⟩ := Option.map_eq_some_iff.mp hr
  exact ((steady_outgoing s enqueueFifo fun s p => steady_enqueueProcessTo s _ p).trans
    (steady_agingSelect _ _ _ hs)).switched _

theorem pickNext_switched {s' : KState} (h : pickNext alg s = some s') : Switched s s' := by
  cases alg with
  | roundRobin => exact Option.some.inj h ▸ switched_scheduleRoundRobin _ s
  | fcfs | sjf => exact Option.some.inj h ▸ switched_scheduleQueueHead _ s
  | lottery => exact Option.some.inj h ▸ switched_scheduleLottery _ s
  | priorityAging => exact switched_schedulePriorityAging h
  | mlq | mlfq => exact Option.some.inj h ▸ switched_scheduleMultilevel _ _ s

theorem Switched.guarded {s' : KState} (h : Switched s s') (hs : Guarded s)
    (hreg : s'.processes s'.currentProcess = some s'.currentProcess) : Guarded s' where
  current := by
    rw [h.processes] at hreg
    have hguard := h.guard s'.currentProcess
    rw [if_pos rfl] at hguard
    rw [KState.current, hguard]
    split
    next e => rw [e]; have := hs.current; unfold KState.current at this; omega
    next hne => have := hs.others _ hreg hne; omega
  others p hp hne := by
    rw [h.processes] at hp
    rw [h.guard, if_neg hne]
    split
    next e => rw [e]; have := hs.current; unfold KState.current at this; omega
    next hne' => have := hs.others p hp hne'; omega

end Decisions

/-! ## Operations in front of their decision -/

section Operations

variable {s t : KState} {alg : Algorithm}

theorem steady_wakeSlot (alg : Algorithm) {waits : Proc → Bool} {wake : Proc → Proc}
    (hw : ∀ b : Proc, b.Steady (wake b)) (s : KState) (i : Nat) :
    Steady s (wakeSlot alg waits wake s i) := by
  unfold wakeSlot
  split
  next => exact .refl s
  next =>
    split
    next => exact (Steady.modify s _ hw).trans (steady_enqueueProcess _ _ _)
    next => exact .refl s

theorem steady_wakeAll (alg : Algorithm) {waits : Proc → Bool} {wake : Proc → Proc}
    (hw : ∀ b : Proc, b.Steady (wake b)) (n : Nat) (s : KState) :
    Steady s (wakeAll alg waits wake n s) :=
  steady_foldl s (steady_wakeSlot alg hw) _

theorem steady_wakeReceiver (alg : Algorithm) (s : KState) (p : Pid) :
    Steady s (wakeReceiver alg s p) := by
  unfold wakeReceiver
  split
  next => exact (Steady.modify s p .makeReady).trans (steady_enqueueProcess _ _ _)
  next => exact .refl s

theorem steady_handleUartIrq (alg : Algorithm) (mis : BitVec 32) (fifo : List (BitVec 32))
    (s : KState) : Steady s (handleUartIrq alg mis fifo s) := by
  unfold handleUartIrq
  split
  next =>
    induction fifo generalizing s with
    | nil => exact .refl s
    | cons dr fifo ih =>
        have hone : Steady s (uartReceive alg s dr) := by
          unfold uartReceive
          split
          next => exact steady_wakeAll alg .makeReady _ s
          next => exact .refl s
        exact hone.trans (ih _)
  next => exact .refl s

theorem steady_boostQueue (q : Int) (fuel : Nat) (s : KState) : Steady s (boostQueue q fuel s) := by
  induction fuel generalizing s with
  | zero => exact .refl s
  | succ n ih =>
      have hdequeue := steady_dequeueProcessFrom s (.mlQueues q)
      rw [boostQueue]
      split
      next hd => rw [hd] at hdequeue; exact hdequeue
      next p t hd =>
        rw [hd] at hdequeue
        have hlevel : Steady t { t with queueLevel := update t.queueLevel p 0 } :=
          .of_eq rfl rfl (fun _ => .refl _) rfl
        exact ((hdequeue.trans hlevel).trans (steady_enqueueProcessTo _ _ _)).trans (ih _)

theorem steady_boost (policy : MultilevelPolicy) (s : KState) : Steady s (boost policy s) := by
  have hqueues : ∀ (qs : List Int) (s : KState),
      Steady s (qs.foldl (fun s q => boostQueue q maxProcesses s) s) := by
    intro qs
    induction qs with
    | nil => exact Steady.refl
    | cons q qs ih => exact fun s => (steady_boostQueue q _ s).trans (ih _)
  exact (hqueues _ s).trans (.of_eq rfl rfl (fun _ => .refl _) rfl)

theorem steady_boostIfDue (policy : MultilevelPolicy) (s : KState) :
    Steady s (boostIfDue policy s) := by
  have hcount : Steady s { s with mlTicksSinceBoost := s.mlTicksSinceBoost + 1 } :=
    .of_eq rfl rfl (fun _ => .refl _) rfl
  unfold boostIfDue
  split
  next =>
    dsimp only
    split
    next => exact hcount.trans (steady_boost policy _)
    next => exact hcount
  next => exact .refl s

theorem steady_demoteIfExpired (policy : MultilevelPolicy) (s : KState) :
    Steady s (demoteIfExpired policy s) := by
  unfold demoteIfExpired
  split
  next => exact .of_eq rfl rfl (fun _ => .refl _) rfl
  next => exact .refl s

theorem steady_onTick (alg : Algorithm) (s : KState) : Steady s (alg.onTick s) := by
  unfold Algorithm.onTick
  split
  next => exact .refl s
  next policy _ => exact (steady_boostIfDue policy s).trans (steady_demoteIfExpired policy _)

/-- The demotion looks at the guard. -/
theorem multilevelOnTick_guarded (policy : MultilevelPolicy) (hg : 0 < s.current.preemptDisabled) :
    multilevelOnTick policy s = boostIfDue policy s := by
  rw [multilevelOnTick]
  refine if_neg fun h => ?_
  have hzero := h.2.2.2.1
  rw [(steady_boostIfDue policy s).current] at hzero
  omega

theorem steady_accountTick (alg : Algorithm) (s : KState) : Steady s (accountTick alg s) :=
  (Steady.modify_field s s.currentProcess (f := Proc.tick) (fun _ => rfl) fun _ => rfl).trans
    (steady_onTick alg _)

theorem steady_closeBurst (s : KState) : Steady s (closeBurst s) := by
  unfold closeBurst
  dsimp only
  split
  next =>
    have hburst : Steady s (s.modify s.currentProcess Proc.endBurst) :=
      .modify_field _ _ (fun _ => rfl) fun _ => rfl
    exact hburst.trans (steady_setCounter _ _ _)
  next => exact steady_setCounter _ _ _

theorem queueWrites_closeBurst (s : KState) : (closeBurst s).queueWrites = s.queueWrites := by
  unfold closeBurst
  dsimp only
  split <;> rfl

/-- A critical section as a whole changes no guard. -/
theorem Steady.section (h : Steady (preemptDisable s) t) :
    (preemptEnable t).currentProcess = s.currentProcess ∧
      (preemptEnable t).processes = s.processes ∧
      ∀ p, (s.pcb p).toProc.Steady ((preemptEnable t).pcb p).toProc := by
  refine ⟨h.currentProcess, h.processes, fun p => ⟨?_, h.waits_bracket p⟩⟩
  have hcur : t.currentProcess = s.currentProcess := h.currentProcess
  rw [guard_preemptEnable, h.guard_bracket, hcur]
  split <;> omega

/-- The queue writes of `exit_process` come between its `preempt_disable` and
its `preempt_enable`. -/
theorem exists_retire (alg : Algorithm) (s : KState) :
    ∃ t, Steady (preemptDisable s) t ∧ retireCurrent alg s = preemptEnable t := by
  refine ⟨_, ?_, rfl⟩
  have hdie : Steady (preemptDisable s) ((preemptDisable s).setState s.currentProcess .zombie) :=
    .setState _ _ rfl
  exact hdie.trans (steady_wakeAll alg .endWait _ _)

/-- The insertion of a new process comes behind the writes to the table. -/
theorem exists_register (alg : Algorithm) (s : KState) {p : Pid} (hn : s.nProcesses < maxProcesses)
    (hp : p < maxProcesses) :
    (addProcessToScheduler alg s p).1 = 0 ∧ ∃ t, Steady t (addProcessToScheduler alg s p).2 ∧
      t.currentProcess = s.currentProcess ∧ t.processes = update s.processes p (some p) ∧
      t.pcb = s.pcb ∧ t.queueWrites = s.queueWrites := by
  have hroom : ¬ (maxProcesses ≤ s.nProcesses ∨ maxProcesses ≤ p) :=
    fun h => h.elim (Nat.not_le.mpr hn) (Nat.not_le.mpr hp)
  rw [addProcessToScheduler, if_neg hroom]
  dsimp only
  generalize update s.queueLevel p _ = level
  refine ⟨rfl, { s with processes := update s.processes p (some p), queueLevel := level }, ?_,
    rfl, rfl, rfl, rfl⟩
  split
  next => exact (steady_enqueueProcess _ p alg).trans (.of_eq rfl rfl (fun _ => .refl _) rfl)
  next => exact .of_eq rfl rfl (fun _ => .refl _) rfl

/-- A fork that succeeds: the child is born inside a critical section, and the
parent has left its own. -/
structure Forked (s t : KState) : Prop where
  currentProcess : t.currentProcess = s.currentProcess
  processes : t.processes = update s.processes s.nProcesses (some s.nProcesses)
  guard : ∀ p, (t.pcb p).preemptDisabled =
    if p = s.nProcesses then 1 else (s.pcb p).preemptDisabled
  writes : 0 ≤ s.current.preemptDisabled → GuardedSince s t

theorem forked_copyProcess (alg : Algorithm) (hcur : s.currentProcess < s.nProcesses)
    (hn : s.nProcesses < maxProcesses) : Forked s (copyProcess alg true s).2 := by
  have hroom : ¬ (true = false ∨ maxProcesses ≤ (preemptDisable s).nProcesses) :=
    fun h => h.elim Bool.noConfusion (Nat.not_le.mpr hn)
  -- the state with the child's PCB filled in
  obtain ⟨s₂, hs₂⟩ : ∃ s₂ : KState, s₂ = { preemptDisable s with
    pcb := update (preemptDisable s).pcb s.nProcesses (childPcb (preemptDisable s).current) } :=
      ⟨_, rfl⟩
  obtain ⟨herror, t, hsteady, htcur, htproc, htpcb, htw⟩ :=
    exists_register alg s₂ (p := s.nProcesses) (hs₂ ▸ hn) hn
  have hresult : (copyProcess alg true s).2 =
      preemptEnable (addProcessToScheduler alg s₂ s.nProcesses).2 := by
    rw [hs₂] at herror ⊢
    rw [copyProcess, if_neg hroom]
    refine congrArg Prod.snd (if_neg fun h => ?_)
    exact absurd (lt_of_eq_of_lt herror.symm h) (by decide)
  refine ⟨?_, ?_, fun p => ?_, fun hs => ?_⟩
  · rw [hresult]
    exact hsteady.currentProcess.trans (htcur.trans (hs₂ ▸ rfl))
  · rw [hresult]
    exact hsteady.processes.trans (htproc.trans (by rw [hs₂]; rfl))
  · have hcur₂ : (addProcessToScheduler alg s₂ s.nProcesses).2.currentProcess =
        s.currentProcess := by rw [hsteady.currentProcess, htcur, hs₂]; rfl
    rw [hresult, guard_preemptEnable, hsteady.guard, htpcb, hcur₂, hs₂]
    dsimp only
    rw [update_apply]
    split
    next e =>
      rw [if_neg fun h => Nat.ne_of_lt hcur (h.symm.trans e), Int.sub_zero]
      rfl
    next => rw [guard_preemptDisable]; split <;> omega
  · rw [hresult]
    refine GuardedSince.trans (.of_eq ?_) ((hsteady.guardedSince ?_).trans (.of_eq rfl))
    · rw [htw, hs₂]; rfl
    · have hne : (preemptDisable s).currentProcess ≠ s.nProcesses := Nat.ne_of_lt hcur
      rw [KState.current, htcur, htpcb, hs₂]
      dsimp only
      rw [update_apply, if_neg hne]
      have := current_preemptDisable s
      unfold KState.current at *
      omega

theorem guarded_copyProcess (alg : Algorithm) (page : Bool) (hs : Guarded s)
    (hcur : s.currentProcess < s.nProcesses) :
    Guarded (copyProcess alg page s).2 ∧ GuardedSince s (copyProcess alg page s).2 := by
  by_cases hfail : page = false ∨ maxProcesses ≤ (preemptDisable s).nProcesses
  · rw [copyProcess, if_pos hfail]
    refine ⟨⟨?_, fun p hp hne => ?_⟩, .of_eq rfl⟩
    · rw [current_preemptDisable]
      have := hs.current
      omega
    · have hne : p ≠ s.currentProcess := hne
      rw [guard_preemptDisable, if_neg hne, Int.add_zero]
      exact hs.others p hp hne
  · have hn : s.nProcesses < maxProcesses := Nat.lt_of_not_le fun h => hfail (.inr h)
    obtain rfl : page = true := by simpa using fun h => hfail (.inl h)
    have hfork := forked_copyProcess alg hcur hn
    refine ⟨⟨?_, fun p hp hne => ?_⟩, hfork.writes hs.current⟩
    · rw [KState.current, hfork.guard, hfork.currentProcess, if_neg (Nat.ne_of_lt hcur)]
      exact hs.current
    · rw [hfork.guard]
      rw [hfork.currentProcess] at hne
      split
      next => exact le_rfl
      next hpn =>
        rw [hfork.processes, update_apply, if_neg hpn] at hp
        exact hs.others p hp hne

theorem steady_setQueuePriority (s : KState) (p : Pid) (level : Int) :
    Steady s (preemptEnable { (preemptDisable s).modify p fun b =>
      { b with queuePriority := level } with
        queueLevel := update (preemptDisable s).queueLevel p level }) := by
  have hsteady : Steady (preemptDisable s) { (preemptDisable s).modify p fun b =>
      { b with queuePriority := level } with
        queueLevel := update (preemptDisable s).queueLevel p level } :=
    (Steady.modify_field _ p (f := fun b => { b with queuePriority := level }) (fun _ => rfl)
      fun _ => rfl).trans (.of_eq rfl rfl (fun _ => .refl _) rfl)
  obtain ⟨hc, hp, hg⟩ := hsteady.section
  exact .of_eq hc hp hg rfl

theorem steady_schedSetParam (alg : Algorithm) (s : KState) (p : Pid) (param value : Int) :
    Steady s (schedSetParam alg s p param value).2 ∧
      (schedSetParam alg s p param value).2.queueWrites = s.queueWrites := by
  unfold schedSetParam
  split
  next => exact ⟨.refl s, rfl⟩
  next =>
    split
    next =>
      split
      next => exact ⟨.refl s, rfl⟩
      next =>
        exact ⟨.modify_field s p (f := fun b => { b with priority := value }) (fun _ => rfl)
          fun _ => rfl, rfl⟩
    next =>
      split
      next =>
        split
        next => exact ⟨.refl s, rfl⟩
        next =>
          exact ⟨.modify_field s p (f := fun b => { b with tickets := value }) (fun _ => rfl)
            fun _ => rfl, rfl⟩
      next =>
        split
        next =>
          split
          next => exact ⟨.refl s, rfl⟩
          next => exact ⟨steady_setQueuePriority s p _, rfl⟩
        next => exact ⟨.refl s, rfl⟩

/-- Up to its decision, only a fork changes a guard. -/
theorem sameGuards_before (alg : Algorithm) {op : Op} (hop : ∀ page, op ≠ .copyProcess page) :
    SameGuards s (before alg s op) := by
  cases op with
  | timerTick =>
      simp only [before]
      split
      next => exact ((steady_accountTick alg s).trans (steady_setCounter _ _ _)).sameGuards
      next => exact (steady_accountTick alg s).sameGuards
  | uartIrq mis fifo => exact (steady_handleUartIrq alg mis fifo s).sameGuards
  | yield => exact ((steady_setCounter s _ 0).trans (steady_closeBurst _)).sameGuards
  | block why =>
      have hblock : SameGuards s (s.setState s.currentProcess why.state) :=
        sameGuards_modify s _ fun _ => rfl
      exact hblock.trans (steady_closeBurst _).sameGuards
  | wait pid =>
      simp only [before]
      split
      next =>
        have hstate : SameGuards s (s.setState s.currentProcess .waitingAnotherProcess) :=
          sameGuards_modify s _ fun _ => rfl
        have hwait : SameGuards _ (waitFor s pid) := sameGuards_modify _ _ fun _ => rfl
        exact (hstate.trans hwait).trans (steady_closeBurst _).sameGuards
      next => exact (Steady.refl s).sameGuards
  | exit =>
      obtain ⟨t, ht, he⟩ := exists_retire alg s
      obtain ⟨hc, hp, hg⟩ := ht.section
      rw [before, he]
      exact SameGuards.trans ⟨hc, hp, fun p => (hg p).guard⟩ (steady_closeBurst _).sameGuards
  | copyProcess page => exact absurd rfl (hop page)
  | wakeReceiver p => exact (steady_wakeReceiver alg s p).sameGuards
  | wakeSenders => exact (steady_wakeAll alg .makeReady _ s).sameGuards
  | sendSignal p k => exact sameGuards_modify s p (f := fun b =>
      { b with pendingSignals := b.pendingSignals ||| (1#32 <<< (k % 32).toNat) }) fun _ => rfl
  | setParam p param value => exact (steady_schedSetParam alg s p param value).1.sameGuards

theorem guarded_before (alg : Algorithm) (op : Op) (hs : Guarded s)
    (hcur : s.currentProcess < s.nProcesses) : Guarded (before alg s op) := by
  cases op with
  | copyProcess page => exact (guarded_copyProcess alg page hs hcur).1
  | _ => exact hs.same (sameGuards_before alg (by simp))

/-- The calls of process context, but for the wake-ups of the message
functions. -/
def Op.Closed : Op → Prop
  | .timerTick | .uartIrq _ _ | .wakeReceiver _ | .wakeSenders => False
  | _ => True

/-- Their queue writes in front of the decision. -/
theorem guardedSince_before (alg : Algorithm) {op : Op} (hs : Guarded s)
    (hcur : s.currentProcess < s.nProcesses) (hop : op.Closed) :
    GuardedSince s (before alg s op) := by
  cases op with
  | timerTick | uartIrq mis fifo | wakeReceiver p | wakeSenders => exact hop.elim
  | yield | block why => exact .of_eq (queueWrites_closeBurst _)
  | wait pid =>
      simp only [before]
      split
      next => exact .of_eq (queueWrites_closeBurst _)
      next => exact .of_eq rfl
  | exit =>
      obtain ⟨t, ht, he⟩ := exists_retire alg s
      rw [before, he]
      exact (ht.bracket hs.current).trans (.of_eq (queueWrites_closeBurst _))
  | copyProcess page => exact (guarded_copyProcess alg page hs hcur).2
  | sendSignal p k => exact .of_eq rfl
  | setParam p param value => exact .of_eq (steady_schedSetParam alg s p param value).2

end Operations

end Demoos
