import Demoos.Scheduler.Guard

/-!
# What the guard protects

The guard is to keep the timer tick and the UART interrupt off the queues while
process context works on them.  `Protects` says what that asks of one operation,
and `Respects` when the code does it.  The two agree in every reachable state.
-/

namespace Demoos

open Function (update update_apply)
open Relation (ReflTransGen)

/-! ## The two conditions -/

/-- Heads, tails, links and levels are as before. -/
structure Untouched (s s' : KState) : Prop where
  queue : s'.queue = s.queue
  links : s'.links = s.links
  queueLevel : s'.queueLevel = s.queueLevel

/-- Process context writes the queues under a positive guard, whether in a
system call or in a pick function, and an interrupt that meets a positive guard
leaves them alone. -/
def Protects (alg : Algorithm) (s s' : KState) : Op → Prop
  | .timerTick =>
      (0 < s.current.preemptDisabled → Untouched s s') ∧ GuardedSince (before alg s .timerTick) s'
  | .uartIrq _ _ => 0 < s.current.preemptDisabled → Untouched s s'
  | _ => GuardedSince s s'

/-- One of the first `bound` slots holds a process other than init in state
`st`. -/
def Sleeper (s : KState) (st : ProcessState) (bound : Nat) : Prop :=
  ∃ i < bound, ∃ p, s.processes i = some p ∧ p ≠ initProcess ∧ (s.pcb p).state = st

/-- The tick ends the boost period, with a process to move or a level to
reset. -/
def BoostDue (alg : Algorithm) (s : KState) : Prop :=
  ∃ policy, alg.mlPolicy = some policy ∧ 0 < policy.boostPeriod ∧
    policy.boostPeriod ≤ s.mlTicksSinceBoost + 1 ∧
    ((∃ q ∈ policy.levels.tail, (s.queue (.mlQueues q)).head ≠ none) ∨
      ∃ i < maxProcesses, s.queueLevel i ≠ 0)

/-- `dr` is a character without an error flag. -/
def Good (dr : BitVec 32) : Prop := (dr >>> 8) &&& 0xF#32 = 0#32

def Respects (alg : Algorithm) (s : KState) : Op → Prop
  | .timerTick => 0 < s.current.preemptDisabled → ¬ BoostDue alg s
  | .uartIrq mis fifo =>
      0 < s.current.preemptDisabled → mis.getLsbD 4 = true →
        (∃ dr ∈ fifo, Good dr) → ¬ Sleeper s .waitingUartInput s.nProcesses
  | .wakeReceiver p =>
      p ≠ initProcess → (s.pcb p).state = .waitingToReceiveMessage → 0 < s.current.preemptDisabled
  | .wakeSenders => Sleeper s .waitingToSendMessage maxProcesses → 0 < s.current.preemptDisabled
  | _ => True

/-! ## Wake-ups -/

section Wakes

variable {s t : KState} {alg : Algorithm}

theorem guardedSince_iff {ws : List Int} (h : t.queueWrites = ws ++ s.queueWrites) :
    GuardedSince s t ↔ ∀ g ∈ ws, 0 < g := by
  constructor
  · rintro ⟨ws', hw, hg⟩
    rwa [← List.append_cancel_right (hw.symm.trans h)]
  · exact fun hg => ⟨ws, h, hg⟩

theorem Untouched.refl (s : KState) : Untouched s s := ⟨rfl, rfl, rfl⟩

theorem Untouched.trans {u : KState} (h : Untouched s t) (h' : Untouched t u) : Untouched s u :=
  ⟨h'.queue.trans h.queue, h'.links.trans h.links, h'.queueLevel.trans h.queueLevel⟩

theorem untouched_modify (s : KState) (p : Pid) (f : Proc → Proc) : Untouched s (s.modify p f) :=
  ⟨rfl, KState.links_modify s p f, rfl⟩

/-- The wake-up of the receiver writes its queue, and under whatever guard the
sender has. -/
theorem guardedSince_wakeReceiver (alg : Algorithm) (s : KState) (p : Pid) :
    GuardedSince s (wakeReceiver alg s p) ↔ Respects alg s (.wakeReceiver p) := by
  unfold wakeReceiver Respects
  split
  next hs =>
    by_cases hi : p = initProcess
    · rw [hi, enqueueProcess, if_pos rfl]
      exact ⟨fun _ h => absurd rfl h, fun _ => .of_eq rfl⟩
    · have hguard : (s.modify p Proc.makeReady).current.preemptDisabled =
          s.current.preemptDisabled := (Steady.modify s p .makeReady).current
      have hwrites : (enqueueProcess alg (s.modify p Proc.makeReady) p).queueWrites =
          [s.current.preemptDisabled] ++ s.queueWrites := by
        rw [queueWrites_enqueueProcess _ _ _ hi, hguard]
        rfl
      rw [guardedSince_iff hwrites]
      simp [hi, hs]
  next hs => exact ⟨fun _ _ h => absurd h hs, fun _ => .of_eq rfl⟩

/-- What a loop over `processes[]` that wakes at most init leaves as it is. -/
structure Quiet (s t : KState) : Prop where
  untouched : Untouched s t
  processes : t.processes = s.processes
  nProcesses : t.nProcesses = s.nProcesses
  queueWrites : t.queueWrites = s.queueWrites
  proc : ∀ p, p ≠ initProcess → (t.pcb p).toProc = (s.pcb p).toProc

theorem Quiet.refl (s : KState) : Quiet s s := ⟨.refl s, rfl, rfl, rfl, fun _ _ => rfl⟩

theorem Quiet.trans {u : KState} (h : Quiet s t) (h' : Quiet t u) : Quiet s u where
  untouched := h.untouched.trans h'.untouched
  processes := h'.processes.trans h.processes
  nProcesses := h'.nProcesses.trans h.nProcesses
  queueWrites := h'.queueWrites.trans h.queueWrites
  proc p hp := (h'.proc p hp).trans (h.proc p hp)

theorem Quiet.sleeper (h : Quiet s t) {st : ProcessState} {n : Nat} (hs : ¬ Sleeper s st n) :
    ¬ Sleeper t st n := by
  rintro ⟨i, hi, p, hp, hne, hst⟩
  refine hs ⟨i, hi, p, h.processes ▸ hp, hne, ?_⟩
  rw [← hst]
  exact congrArg Proc.state (h.proc p hne).symm

theorem quiet_wakeSlot (alg : Algorithm) {st : ProcessState} {n i : Nat} (hi : i < n)
    (hs : ¬ Sleeper s st n) : Quiet s (wakeSlot alg (·.state == st) Proc.makeReady s i) := by
  unfold wakeSlot
  split
  next => exact .refl s
  next p hp =>
    split
    next hst =>
      have hinit : p = initProcess := by_contra fun hne =>
        hs ⟨i, hi, p, hp, hne, eq_of_beq hst⟩
      rw [enqueueProcess, if_pos hinit]
      refine ⟨untouched_modify _ _ _, rfl, rfl, rfl, fun q hq => ?_⟩
      rw [KState.toProc_modify, if_neg (hinit ▸ hq)]
    next => exact .refl s

theorem quiet_wakeAll (alg : Algorithm) {st : ProcessState} {n : Nat} (hs : ¬ Sleeper s st n) :
    Quiet s (wakeAll alg (·.state == st) Proc.makeReady n s) := by
  have hloop : ∀ (is : List Nat) (s : KState), (∀ i ∈ is, i < n) → ¬ Sleeper s st n →
      Quiet s (is.foldl (wakeSlot alg (·.state == st) Proc.makeReady) s) := by
    intro is
    induction is with
    | nil => exact fun s _ _ => .refl s
    | cons i is ih =>
        intro s his hs
        have hslot := quiet_wakeSlot alg (his i List.mem_cons_self) hs
        exact hslot.trans (ih _ (fun j hj => his j (List.mem_cons_of_mem i hj)) (hslot.sleeper hs))
  exact hloop _ s (fun i hi => List.mem_range.mp hi) hs

theorem wakeAll_succ (alg : Algorithm) (waits : Proc → Bool) (wake : Proc → Proc) (n : Nat)
    (s : KState) :
    wakeAll alg waits wake (n + 1) s = wakeSlot alg waits wake (wakeAll alg waits wake n s) n := by
  rw [wakeAll, List.range_succ, List.foldl_append]
  rfl

variable {a : Sched}

/-- A loop that meets a sleeper writes the queue under the guard it finds. -/
theorem Represents.wakeAll_writes (h : Represents s a) (alg : Algorithm) {st : ProcessState}
    (hst : st.blocked = true)
    {n : Nat} (hs : Sleeper s st n) :
    ∃ ws, (wakeAll alg (·.state == st) Proc.makeReady n s).queueWrites = ws ++ s.queueWrites ∧
      s.current.preemptDisabled ∈ ws := by
  obtain ⟨i, hi, p, hp, hne, hsleep⟩ := hs
  have hpi : p = i := by
    rw [h.refines.processes, h.law.table] at hp
    split at hp
    next => exact (Option.some.inj hp).symm
    next => exact absurd hp (by simp)
  induction n with
  | zero => exact absurd hi (Nat.not_lt_zero i)
  | succ n ih =>
      have hsteady : Steady s (wakeAll alg (·.state == st) Proc.makeReady n s) :=
        steady_wakeAll alg .makeReady n s
      rw [Demoos.wakeAll_succ]
      rcases Nat.lt_succ_iff_lt_or_eq.mp hi with hlt | rfl
      · obtain ⟨ws, hw, hmem⟩ := ih hlt
        have hslot : Steady _ (wakeSlot alg (·.state == st) Proc.makeReady
            (wakeAll alg (·.state == st) Proc.makeReady n s) n) :=
          steady_wakeSlot alg .makeReady _ n
        obtain ⟨ws', hw', _⟩ := hslot.writes
        exact ⟨ws' ++ ws, by rw [hw', hw, List.append_assoc], List.mem_append_right ws' hmem⟩
      · have hproc : ((wakeAll alg (·.state == st) Proc.makeReady i s).pcb p).state = st := by
          have href := h.refines.wakeAll alg h.law (Sched.waker_state st hst) i
          rw [href.state_eq, Sched.proc_wakeAll alg h.law (Sched.waker_state st hst), if_neg
            fun hn => Nat.ne_of_lt hn.1 hpi, ← h.refines.state_eq, hsleep]
        obtain ⟨ws, hw, hws⟩ := hsteady.writes
        refine ⟨s.current.preemptDisabled :: ws, ?_, List.mem_cons_self⟩
        rw [wakeSlot, hsteady.processes, hp]
        dsimp only
        rw [if_pos (beq_iff_eq.mpr hproc), queueWrites_enqueueProcess _ _ _ hne,
          (Steady.modify _ p .makeReady).current, hsteady.current, List.cons_append, ← hw]
        rfl

theorem Represents.guardedSince_wakeSenders (h : Represents s a) :
    GuardedSince s (wakeSenders alg s) ↔ Respects alg s .wakeSenders := by
  constructor
  · rintro ⟨ws, hw, hg⟩ hs
    obtain ⟨ws', hw', hmem⟩ := h.wakeAll_writes alg rfl hs
    rw [← List.append_cancel_right (hw.symm.trans hw')] at hmem
    exact hg _ hmem
  · intro hs
    by_cases hg : 0 < s.current.preemptDisabled
    · exact (steady_wakeAll alg .makeReady _ s).guardedSince hg
    · exact .of_eq (quiet_wakeAll alg fun hn => hg (hs hn)).queueWrites

end Wakes

/-! ## The UART interrupt -/

section Uart

variable {s s' : KState} {a b : Sched} {alg : Algorithm} {mis : BitVec 32}
  {fifo : List (BitVec 32)}

theorem quiet_fifo (alg : Algorithm) (fifo : List (BitVec 32)) (s : KState)
    (h : (∃ dr ∈ fifo, Good dr) → ¬ Sleeper s .waitingUartInput s.nProcesses) :
    Quiet s (fifo.foldl (uartReceive alg) s) := by
  induction fifo generalizing s with
  | nil => exact .refl s
  | cons dr fifo ih =>
      rw [List.foldl_cons, uartReceive]
      split
      next hgood =>
        have hs := h ⟨dr, List.mem_cons_self, hgood⟩
        have hone := quiet_wakeAll alg hs
        refine hone.trans (ih _ fun _ => ?_)
        rw [hone.nProcesses]
        exact hone.sleeper hs
      next => exact ih s fun ⟨dr', hmem, hg⟩ => h ⟨dr', List.mem_cons_of_mem dr hmem, hg⟩

/-- Without a reader asleep, or without a good character, the interrupt touches
no queue. -/
theorem untouched_handleUartIrq (alg : Algorithm)
    (h : mis.getLsbD 4 = true → (∃ dr ∈ fifo, Good dr) →
      ¬ Sleeper s .waitingUartInput s.nProcesses) :
    Untouched s (handleUartIrq alg mis fifo s) := by
  unfold handleUartIrq
  split
  next hm => exact (quiet_fifo alg fifo s (h hm)).untouched
  next => exact .refl s

/-- A good character wakes whoever waits for one. -/
theorem ready_fifo (hlaw : a.Law) {p : Pid} (hlt : p < a.nProcesses)
    (hp : (a.proc p).state = .waitingUartInput) (hgood : ∃ dr ∈ fifo, Good dr) :
    ((fifo.foldl (Sched.uartReceive alg) a).proc p).state = .ready := by
  induction fifo generalizing a with
  | nil => obtain ⟨_, hmem, _⟩ := hgood; exact absurd hmem List.not_mem_nil
  | cons dr fifo ih =>
      rw [List.foldl_cons]
      by_cases hdr : Good dr
      · have hw := Sched.waker_state .waitingUartInput rfl
        have hone : a.uartReceive alg dr =
            a.wakeAll alg (·.state == .waitingUartInput) Proc.makeReady a.nProcesses := if_pos hdr
        have hready : ((a.uartReceive alg dr).proc p).state = .ready := by
          rw [hone, Sched.proc_wakeAll alg hlaw hw, if_pos ⟨hlt, hlt, beq_iff_eq.mpr hp⟩]
          rfl
        have hlaw' : (a.uartReceive alg dr).Law := by
          rw [hone]
          exact hlaw.wakeAll alg hw _
        have hcalm := hlaw'.calm_handleUartIrq alg 16 fifo
        have hlt' : p < (a.uartReceive alg dr).nProcesses := by
          rw [hone, Sched.toGlobals_wakeAll alg hlaw hw]
          exact hlt
        rcases (hcalm.proc p hlt').state with ⟨hs, _⟩ | ⟨_, hs⟩
        · exact hs.trans hready
        · exact hs
      · have hone : a.uartReceive alg dr = a := if_neg hdr
        rw [hone]
        refine ih hlaw hlt hp ?_
        obtain ⟨dr', hmem, hg⟩ := hgood
        rcases List.mem_cons.mp hmem with rfl | hmem
        · exact absurd hg hdr
        · exact ⟨dr', hmem, hg⟩

/-- The law knows the sleepers by their pid. -/
theorem Represents.sleeper (h : Represents s a) {st : ProcessState} {n : Nat}
    (hs : Sleeper s st n) : ∃ p, p ≠ initProcess ∧ p < a.nProcesses ∧ (a.proc p).state = st := by
  obtain ⟨i, _, p, hp, hne, hst⟩ := hs
  rw [h.refines.processes, h.law.table] at hp
  split at hp
  next hlt =>
    obtain rfl := Option.some.inj hp
    exact ⟨i, hne, hlt, (h.refines.state_eq i).symm.trans hst⟩
  next => exact absurd hp (by simp)

theorem contents_untouched (h : Untouched s s') (l : ReadyList) : s'.contents l = s.contents l := by
  rw [KState.contents, KState.contents, h.queue, h.links]

/-- A reader that the interrupt wakes goes into a queue. -/
theorem Represents.untouched_handleUartIrq (h : Represents s a)
    (hu : Untouched s (handleUartIrq alg mis fifo s)) (hm : mis.getLsbD 4 = true)
    (hgood : ∃ dr ∈ fifo, Good dr) : ¬ Sleeper s .waitingUartInput s.nProcesses := by
  intro hs
  obtain ⟨p, hne, hlt, hst⟩ := h.sleeper hs
  have href : Refines (handleUartIrq alg mis fifo s) (a.handleUartIrq alg mis fifo) :=
    h.refines.handleUartIrq alg h.law mis fifo
  have hcalm := h.law.calm_handleUartIrq alg mis fifo
  have hready : ((a.handleUartIrq alg mis fifo).proc p).state = .ready := by
    rw [Sched.handleUartIrq, if_pos hm]
    exact ready_fifo h.law hlt hst hgood
  obtain ⟨l, hl⟩ := hcalm.law.linked p hne (Nat.lt_of_lt_of_le hlt hcalm.nProcesses) hready
  have hcontents : (handleUartIrq alg mis fifo s).contents l =
      (a.handleUartIrq alg mis fifo).list l := congrFun (congrArg Sched.list
    (href.abstract_eq hcalm.law)) l
  rw [← hcontents, contents_untouched hu, h.contents_eq] at hl
  exact absurd ((h.law.queued l p hl).2.2.symm.trans hst) (by decide)

end Uart

/-! ## The timer tick -/

section Tick

variable {s s' : KState} {a : Sched} {alg : Algorithm}

/-- A tick that meets a positive guard ends behind its bookkeeping. -/
theorem handleTimerTick_guarded (alg : Algorithm) (hg : 0 < s.current.preemptDisabled) :
    handleTimerTick alg s = some (accountTick alg s) ∧
      before alg s .timerTick = accountTick alg s := by
  have hguard : 0 < (accountTick alg s).current.preemptDisabled := by
    rw [(steady_accountTick alg s).current]
    exact hg
  refine ⟨if_pos (.inr hguard), if_neg fun hover => ?_⟩
  exact sliceOver_iff.mp hover (.inr hguard)

theorem boostQueue_empty {q : Int} (h : (s.queue (.mlQueues q)).head = none) (fuel : Nat) :
    boostQueue q fuel s = s := by
  cases fuel with
  | zero => rfl
  | succ n => rw [boostQueue, dequeueProcessFrom, h]

/-- A boost that finds the lower queues empty and every level at zero. -/
theorem untouched_boost (policy : MultilevelPolicy)
    (hq : ∀ q ∈ policy.levels.tail, (s.queue (.mlQueues q)).head = none)
    (hl : ∀ i < maxProcesses, s.queueLevel i = 0) : Untouched s (boost policy s) := by
  have hqueues : ∀ qs : List Int, (∀ q ∈ qs, (s.queue (.mlQueues q)).head = none) →
      qs.foldl (fun s q => boostQueue q maxProcesses s) s = s := by
    intro qs hqs
    induction qs with
    | nil => rfl
    | cons q qs ih =>
        rw [List.foldl_cons, boostQueue_empty (hqs q List.mem_cons_self)]
        exact ih fun q hq => hqs q (List.mem_cons_of_mem _ hq)
  rw [boost, hqueues _ hq]
  refine ⟨rfl, rfl, funext fun i => ?_⟩
  change (if i < maxProcesses then 0 else s.queueLevel i) = s.queueLevel i
  split
  next hi => exact (hl i hi).symm
  next => rfl

/-- The bookkeeping of a tick that meets a positive guard: the boost is all. -/
theorem accountTick_guarded (hg : 0 < s.current.preemptDisabled) :
    accountTick alg s = match alg.mlPolicy with
      | none => s.modify s.currentProcess Proc.tick
      | some policy => boostIfDue policy (s.modify s.currentProcess Proc.tick) := by
  rw [accountTick, Algorithm.onTick]
  cases alg.mlPolicy with
  | none => rfl
  | some policy =>
      have htick := (Steady.modify_field s s.currentProcess (f := Proc.tick) (fun _ => rfl)
        fun _ => rfl).current
      exact multilevelOnTick_guarded _ (by rw [htick]; exact hg)

theorem untouched_accountTick (hg : 0 < s.current.preemptDisabled) (hb : ¬ BoostDue alg s) :
    Untouched s (accountTick alg s) := by
  rw [accountTick_guarded hg]
  have htick := untouched_modify s s.currentProcess Proc.tick
  split
  next => exact htick
  next policy hp =>
    refine htick.trans ?_
    unfold boostIfDue
    split
    next hperiod =>
      dsimp only
      split
      next hdue =>
        have hquiet : ¬ ((∃ q ∈ policy.levels.tail, (s.queue (.mlQueues q)).head ≠ none) ∨
            ∃ i < maxProcesses, s.queueLevel i ≠ 0) :=
          fun h => hb ⟨policy, hp, hperiod, hdue, h⟩
        have hcount : Untouched (s.modify s.currentProcess Proc.tick)
            { s.modify s.currentProcess Proc.tick with
              mlTicksSinceBoost := s.mlTicksSinceBoost + 1 } := ⟨rfl, rfl, rfl⟩
        refine hcount.trans (untouched_boost policy (fun q hq => ?_) fun i hi => ?_)
        · exact by_contra fun h => hquiet (.inl ⟨q, hq, h⟩)
        · exact by_contra fun h => hquiet (.inr ⟨i, hi, h⟩)
      next => exact ⟨rfl, rfl, rfl⟩
    next => exact .refl _

/-- A boost that is due moves a process or resets a level. -/
theorem Represents.untouched_accountTick (h : Represents s a)
    (hg : 0 < s.current.preemptDisabled) (hu : Untouched s (accountTick alg s)) :
    ¬ BoostDue alg s := by
  rintro ⟨policy, hp, hperiod, hdue, hwork⟩
  have hlaw : Sched.Law { a.modify a.currentProcess Proc.tick with
      mlTicksSinceBoost := a.mlTicksSinceBoost + 1 } :=
    (h.law.modify rfl).congr rfl rfl rfl fun _ => rfl
  have href := (h.refines.modify s.currentProcess Proc.tick).mapGlobals
    fun g => { g with mlTicksSinceBoost := g.mlTicksSinceBoost + 1 }
  rw [h.refines.currentProcess] at href
  have haccount : accountTick alg s = boost policy { s.modify a.currentProcess Proc.tick with
      mlTicksSinceBoost := s.mlTicksSinceBoost + 1 } := by
    rw [accountTick_guarded hg, hp, ← h.refines.currentProcess]
    dsimp only
    rw [boostIfDue, if_pos hperiod]
    exact if_pos hdue
  have hboost : Refines (accountTick alg s) (Sched.boost policy
      { a.modify a.currentProcess Proc.tick with
        mlTicksSinceBoost := a.mlTicksSinceBoost + 1 }) := by
    rw [haccount]
    exact href.boost hlaw (Sched.zero_mem_levels alg hp)
  rcases hwork with ⟨q, hq, hhead⟩ | ⟨i, hi, hlevel⟩
  · obtain ⟨hlevels, h0, _⟩ := Refines.levels_eq (Sched.zero_mem_levels alg hp)
    have hempty : (Sched.boost policy { a.modify a.currentProcess Proc.tick with
        mlTicksSinceBoost := a.mlTicksSinceBoost + 1 }).list (.mlQueues q) = [] := by
      have hne : q ≠ 0 := fun e => h0 (e ▸ hq)
      have hmem : q ∈ policy.levels := by rw [hlevels]; exact List.mem_cons_of_mem 0 hq
      simp only [Sched.boost, if_neg hne, if_pos hmem]
    refine hhead ?_
    rw [← hu.queue]
    exact (hboost.holds _).head_eq_none.mpr hempty
  · refine hlevel ?_
    rw [← hu.queueLevel, haccount]
    exact if_pos hi

end Tick

/-! ## The guard in the runs of the code -/

/-- An invariant of the guards. -/
theorem guarded_step {alg : Algorithm} {s s' : KState} {a : Sched} {op : Op} (h : Represents s a)
    (hs : Guarded s) (hop : op.Enabled s.toGlobals) (hstep : step alg s op = some s') :
    Guarded s' := by
  have hcur : s.currentProcess < s.nProcesses := by
    rw [h.refines.currentProcess, h.refines.nProcesses]
    exact h.current.registered
  have hbefore := guarded_before alg op hs hcur
  obtain ⟨b, _, hrep⟩ := h.step hop hstep
  rw [step_eq] at hstep
  split at hstep
  next =>
    refine (pickNext_switched hstep).guarded hbefore ?_
    rw [hrep.refines.currentProcess]
    exact hrep.registered_iff.mpr hrep.current.registered
  next => exact Option.some.inj hstep ▸ hbefore

theorem guardedSince_decision {alg : Algorithm} {s s' : KState} {op : Op}
    (hbefore : Guarded (before alg s op)) (hstep : step alg s op = some s') :
    GuardedSince (before alg s op) s' := by
  rw [step_eq] at hstep
  split at hstep
  next => exact (pickNext_switched hstep).writes hbefore.current
  next => exact Option.some.inj hstep ▸ .of_eq rfl

theorem protects_iff {alg : Algorithm} {s s' : KState} {a : Sched} {op : Op} (h : Represents s a)
    (hs : Guarded s) (hop : op.Enabled s.toGlobals) (hstep : step alg s op = some s') :
    Protects alg s s' op ↔ Respects alg s op := by
  have hcur : s.currentProcess < s.nProcesses := by
    rw [h.refines.currentProcess, h.refines.nProcesses]
    exact h.current.registered
  have hdecision := guardedSince_decision (guarded_before alg op hs hcur) hstep
  have hclosed : op.Closed → GuardedSince s s' := fun hop =>
    (guardedSince_before alg hs hcur hop).trans hdecision
  cases op with
  | timerTick =>
      refine ⟨fun hp hg => ?_, fun hr => ⟨fun hg => ?_, hdecision⟩⟩
      all_goals
        obtain ⟨htick, _⟩ := handleTimerTick_guarded alg hg
        obtain rfl := Option.some.inj (htick.symm.trans hstep)
      · exact h.untouched_accountTick hg (hp.1 hg)
      · exact untouched_accountTick hg (hr hg)
  | uartIrq mis fifo =>
      obtain rfl := Option.some.inj hstep
      exact ⟨fun hp hg hm hgood => h.untouched_handleUartIrq (hp hg) hm hgood,
        fun hr hg => untouched_handleUartIrq alg (hr hg)⟩
  | wakeReceiver p =>
      obtain rfl := Option.some.inj hstep
      exact guardedSince_wakeReceiver alg s p
  | wakeSenders =>
      obtain rfl := Option.some.inj hstep
      exact h.guardedSince_wakeSenders
  | yield | block why | wait pid | exit | copyProcess page | sendSignal p k
  | setParam p param value =>
      exact iff_of_true (hclosed trivial) trivial

/-- The runs from a start that owes no `preempt_enable`. -/
def GuardedReachable (alg : Algorithm) : KState → Prop :=
  Transition.Reachable (fun s => Start s ∧ Guarded s) (Next alg)

theorem guarded_boot (timer : Nat → BitVec 32) : Guarded (boot timer) where
  current := le_rfl
  others p hp hne := by
    rw [slots_boot] at hp
    split at hp
    next hlt => exact absurd (Nat.lt_one_iff.mp hlt) hne
    next => exact absurd hp (by simp)

theorem guardedReachable_afterBoot {alg : Algorithm} {ops : List Op} {s : KState}
    (h : afterBoot alg ops = some s) : GuardedReachable alg s :=
  ⟨_, ⟨.boot _, guarded_boot _⟩, run_runOps h⟩

/-- In every run the guard protects the queues from an operation exactly when
the operation respects it, and in any state at all an interrupt that respects a
positive guard touches no queue. -/
theorem guard_protects {alg : Algorithm} {s : KState}
    (h : GuardedReachable alg s) :
    (∀ (op : Op) (s' : KState), op.Enabled s.toGlobals → step alg s op = some s' →
      (Protects alg s s' op ↔ Respects alg s op)) ∧
    ∀ t t' : KState, 0 < t.current.preemptDisabled →
      (Respects alg t .timerTick → step alg t .timerTick = some t' → Untouched t t') ∧
      ∀ mis fifo, Respects alg t (.uartIrq mis fifo) →
        step alg t (.uartIrq mis fifo) = some t' → Untouched t t' := by
  refine ⟨fun op s' hop hs => ?_, fun t t' hg => ⟨fun hr ht => ?_, fun mis fifo hr ht => ?_⟩⟩
  · have hinv : ∃ a, Represents s a ∧ Guarded s := by
      refine Transition.Reachable.invariant (P := fun s => ∃ a, Represents s a ∧ Guarded s) h
        (fun s hs => ⟨_, hs.1.represents, hs.2⟩) ?_
      rintro s t ⟨a, ha, hg⟩ ⟨op, hop, ht⟩
      obtain ⟨b, _, hb⟩ := ha.step hop ht
      exact ⟨b, hb, guarded_step ha hg hop ht⟩
    obtain ⟨a, ha, hg⟩ := hinv
    exact protects_iff ha hg hop hs
  · obtain rfl := Option.some.inj ((handleTimerTick_guarded alg hg).1.symm.trans ht)
    exact untouched_accountTick hg (hr hg)
  · obtain rfl := Option.some.inj ht
    exact untouched_handleUartIrq alg (hr hg)

/-- A sender wakes the receiver with no critical section open. -/
def wakeUnguarded : List Op :=
  [.copyProcess true, .timerTick, .copyProcess true, .block .receiveMessage]

/-- A `copy_process` that fails leaves its critical section open, and a character
wakes a reader inside it. -/
def wakeGuarded : List Op :=
  [.copyProcess true, .timerTick, .copyProcess true, .block .uartInput, .copyProcess false]

/-- Both halves of the promise fail under round robin. -/
theorem unprotected_roundRobin :
    (∃ s s', afterBoot .roundRobin wakeUnguarded = some s ∧ GuardedReachable .roundRobin s ∧
      Op.Enabled s.toGlobals (.wakeReceiver 1) ∧
      step .roundRobin s (.wakeReceiver 1) = some s' ∧
      ¬ Protects .roundRobin s s' (.wakeReceiver 1)) ∧
    ∃ s s', afterBoot .roundRobin wakeGuarded = some s ∧ GuardedReachable .roundRobin s ∧
      0 < s.current.preemptDisabled ∧ step .roundRobin s (.uartIrq 16 [65]) = some s' ∧
      ¬ Untouched s s' := by
  constructor
  · obtain ⟨s, hs, _, hreg, hst, hg⟩ := exists_afterBoot .roundRobin wakeUnguarded
      (fun s => s.processes 1 = some 1 ∧ (s.pcb 1).state = .waitingToReceiveMessage ∧
        s.current.preemptDisabled = 0) (by decide +kernel)
    refine ⟨s, _, hs, guardedReachable_afterBoot hs, hreg, rfl, fun hp => ?_⟩
    have hpos := (guardedSince_wakeReceiver .roundRobin s 1).mp hp (by decide) hst
    rw [hg] at hpos
    exact absurd hpos (by decide)
  · obtain ⟨s, hs, _, hg, hhead, hhead'⟩ := exists_afterBoot .roundRobin wakeGuarded
      (fun s => 0 < s.current.preemptDisabled ∧ (s.queue .readyQueue).head = none ∧
        ((handleUartIrq .roundRobin 16 [65] s).queue .readyQueue).head = some 1)
      (by decide +kernel)
    refine ⟨s, _, hs, guardedReachable_afterBoot hs, hg, rfl, fun hu => ?_⟩
    rw [hu.queue, hhead] at hhead'
    exact absurd hhead' (by simp)

/-- The sender's yield writes under the guard. -/
theorem guard_protects_yield : ∃ s s', afterBoot .roundRobin wakeUnguarded = some s ∧
    step .roundRobin s .yield = some s' ∧ Protects .roundRobin s s' .yield := by
  obtain ⟨s, hs, _, hcur, hnext⟩ := exists_afterBoot .roundRobin wakeUnguarded
    (fun s => s.currentProcess ≠ initProcess ∧ (step .roundRobin s .yield).isSome)
    (by decide +kernel)
  obtain ⟨s', hs'⟩ := Option.isSome_iff_exists.mp hnext
  have henabled : Op.Enabled s.toGlobals .yield := hcur
  exact ⟨s, s', hs, hs', ((guard_protects (guardedReachable_afterBoot hs)).1 _ _ henabled
    hs').mpr trivial⟩

end Demoos
