import Demoos.Scheduler.Waiting
import Demoos.Scheduler.Aging

/-!
# The idle process

The loop of `kernel_main` never calls `schedule`, so only the timer tick takes
the CPU from init.  It does so under a preemptive algorithm.  The counter of
init never exceeds one, so its slice is over at the next tick, every queued
process is in a list the algorithm selects from, and the recharging of priority
aging ends because all priorities are positive.  A non-preemptive algorithm
returns from the tick before it selects, and init keeps the CPU for ever.

`Settled` is the invariant, for runs that start at boot.
-/

namespace Demoos

open Relation (ReflTransGen)

namespace Sched

/-! ## The invariant -/

/-- What holds of init, of the priorities and of the levels in every run from
boot. -/
structure Settled (alg : Algorithm) (a : Sched) : Prop where
  initCounter : (a.proc initProcess).counter ≤ 1
  initPriority : (a.proc initProcess).priority = 1
  priority : ∀ p, p < a.nProcesses → 1 ≤ (a.proc p).priority
  level : ∀ policy, alg.mlPolicy = some policy →
    ∀ p, 0 ≤ a.queueLevel p ∧ a.queueLevel p < policy.nLevels
  lists : ∀ l p, p ∈ a.list l → l ∈ served alg

namespace Settled

variable {alg : Algorithm} {a b : Sched} {p : Pid}

theorem modify (h : a.Settled alg) {f : Proc → Proc}
    (hi : p = initProcess → (f (a.proc p)).counter ≤ 1 ∧ (f (a.proc p)).priority = 1)
    (hp : p < a.nProcesses → 1 ≤ (f (a.proc p)).priority) : (a.modify p f).Settled alg where
  initCounter := by
    rw [proc_modify]
    split
    next e => subst e; exact (hi rfl).1
    next => exact h.initCounter
  initPriority := by
    rw [proc_modify]
    split
    next e => subst e; exact (hi rfl).2
    next => exact h.initPriority
  priority q hq := by
    rw [proc_modify]
    split
    next e => subst e; exact hp hq
    next => exact h.priority q hq
  level := h.level
  lists := h.lists

/-- A write that leaves the priority and does not raise the counter of init. -/
theorem charge (h : a.Settled alg) {f : Proc → Proc}
    (hc : p = initProcess → (f (a.proc p)).counter ≤ 1) (hp : ∀ b, (f b).priority = b.priority) :
    (a.modify p f).Settled alg :=
  h.modify (fun e => ⟨hc e, by rw [hp, e]; exact h.initPriority⟩)
    fun hlt => by rw [hp]; exact h.priority p hlt

/-- A write of neither the counter nor the priority. -/
theorem frame (h : a.Settled alg) {f : Proc → Proc} (hc : ∀ b, (f b).counter = b.counter)
    (hp : ∀ b, (f b).priority = b.priority) : (a.modify p f).Settled alg :=
  h.charge (fun e => by rw [hc, e]; exact h.initCounter) hp

theorem preemptEnable (h : a.Settled alg) : a.preemptEnable.Settled alg :=
  h.frame (fun _ => rfl) fun _ => rfl

theorem preemptDisable (h : a.Settled alg) : a.preemptDisable.Settled alg :=
  h.frame (fun _ => rfl) fun _ => rfl

theorem setCounter (h : a.Settled alg) (p : Pid) : (a.setCounter p 0).Settled alg :=
  h.charge (fun _ => Int.zero_le_ofNat 1) fun _ => rfl

theorem closeBurst (h : a.Settled alg) : a.closeBurst.Settled alg := by
  unfold Sched.closeBurst
  split
  next =>
    have hb : (a.modify a.currentProcess Proc.endBurst).Settled alg :=
      h.frame (fun _ => rfl) fun _ => rfl
    exact hb.setCounter _
  next => exact h.setCounter _

theorem home_mem (h : a.Settled alg) (p : Pid) : a.home alg p ∈ served alg := by
  have hlevel : ∀ policy, alg.mlPolicy = some policy →
      ReadyList.mlQueues (a.queueLevel p) ∈ policy.levels.map .mlQueues := by
    intro policy hp
    obtain ⟨h0, hn⟩ := h.level policy hp p
    refine List.mem_map.mpr ⟨_, List.mem_map.mpr ⟨(a.queueLevel p).toNat, ?_, rfl⟩, ?_⟩
    · rw [List.mem_range]
      omega
    · exact congrArg ReadyList.mlQueues (Int.toNat_of_nonneg h0)
  cases alg with
  | mlq | mlfq => exact hlevel _ rfl
  | _ => exact List.mem_singleton_self _

theorem enqueue (h : a.Settled alg) (p : Pid) : (a.enqueue alg p).Settled alg := by
  have hproc : ∀ {β : Type} (g : Proc → β), (∀ b st, g { b with state := st } = g b) → ∀ q,
      g ((a.enqueue alg p).proc q) = g (a.proc q) := by
    intro β g hg q
    rw [proc_enqueue]
    split
    next => exact hg _ _
    next => rfl
  refine ⟨?_, ?_, fun q hq => ?_, ?_, fun l q hq => ?_⟩
  · rw [hproc Proc.counter fun _ _ => rfl]; exact h.initCounter
  · rw [hproc Proc.priority fun _ _ => rfl]; exact h.initPriority
  · rw [toGlobals_enqueue] at hq
    rw [hproc Proc.priority fun _ _ => rfl]
    exact h.priority q hq
  · rw [toGlobals_enqueue]; exact h.level
  · rcases (mem_list_enqueue alg a p l q).mp hq with hq | ⟨_, _, rfl⟩
    · exact h.lists l q hq
    · exact h.home_mem p

theorem wake (h : a.Settled alg) (p : Pid) {f : Proc → Proc}
    (hc : ∀ b, (f b).counter = b.counter) (hp : ∀ b, (f b).priority = b.priority) :
    ((a.modify p f).enqueue alg p).Settled alg :=
  (h.frame hc hp).enqueue p

theorem wakeAll (h : a.Settled alg) {waits : Proc → Bool} {f : Proc → Proc}
    (hc : ∀ b, (f b).counter = b.counter) (hp : ∀ b, (f b).priority = b.priority) (n : Nat) :
    (a.wakeAll alg waits f n).Settled alg := by
  induction n with
  | zero => exact h
  | succ n ih =>
      rw [wakeAll_succ, wakeSlot]
      split
      next => exact ih
      next =>
        split
        next => exact ih.wake _ hc hp
        next => exact ih

theorem handleUartIrq (h : a.Settled alg) (mis : BitVec 32) (fifo : List (BitVec 32)) :
    (a.handleUartIrq alg mis fifo).Settled alg := by
  unfold Sched.handleUartIrq
  split
  next =>
    induction fifo generalizing a with
    | nil => exact h
    | cons dr fifo ih =>
        refine ih ?_
        unfold uartReceive
        split
        next =>
          have hc : ∀ b : Proc, b.makeReady.counter = b.counter := fun _ => rfl
          exact h.wakeAll hc (fun _ => rfl) _
        next => exact h
  next => exact h

/-! ## Levels -/

/-- A write of one level that the algorithm has. -/
theorem setLevel (h : a.Settled alg) (q : Nat) {level : Int}
    (hl : ∀ policy, alg.mlPolicy = some policy → 0 ≤ level ∧ level < policy.nLevels) :
    Settled alg { a with queueLevel := Function.update a.queueLevel q level } where
  initCounter := h.initCounter
  initPriority := h.initPriority
  priority := h.priority
  level policy hp p := by
    dsimp only
    rw [Function.update_apply]
    split
    next => exact hl policy hp
    next => exact h.level policy hp p
  lists := h.lists

theorem boost (h : a.Settled alg) {policy : MultilevelPolicy} (hp : alg.mlPolicy = some policy)
    (h0 : 0 ∈ policy.levels) : (a.boost policy).Settled alg where
  initCounter := h.initCounter
  initPriority := h.initPriority
  priority := h.priority
  level policy' hp' p := by
    obtain rfl := Option.some.inj (hp.symm.trans hp')
    simp only [Sched.boost]
    split
    next =>
      obtain ⟨n, hn, _⟩ := List.mem_map.mp h0
      have := List.mem_range.mp hn
      omega
    next => exact h.level policy hp p
  lists l p hl := by
    obtain ⟨l', hl', he⟩ := (mem_boost h0).mp hl
    have hmem := h.lists l' p hl'
    rw [served, hp] at hmem ⊢
    obtain ⟨q, hq, rfl⟩ := List.mem_map.mp hmem
    rw [boosted, if_pos hq] at he
    exact he ▸ List.mem_map_of_mem h0

theorem multilevelOnTick (h : a.Settled alg) {policy : MultilevelPolicy}
    (hp : alg.mlPolicy = some policy) : (a.multilevelOnTick policy).Settled alg := by
  have hboost : (a.boostIfDue policy).Settled alg := by
    unfold Sched.boostIfDue
    have hcount : Settled alg { a with mlTicksSinceBoost := a.mlTicksSinceBoost + 1 } :=
      ⟨h.initCounter, h.initPriority, h.priority, h.level, h.lists⟩
    split
    next =>
      dsimp only
      split
      next => exact hcount.boost hp (zero_mem_levels alg hp)
      next => exact hcount
    next => exact h
  unfold Sched.multilevelOnTick Sched.demoteIfExpired
  split
  next hc =>
    refine hboost.setLevel _ fun policy' hp' => ?_
    obtain rfl := Option.some.inj (hp.symm.trans hp')
    have := (hboost.level policy hp (a.boostIfDue policy).currentProcess).1
    omega
  next => exact hboost

theorem accountTick (h : a.Settled alg) : (a.accountTick alg).Settled alg := by
  have htick : (a.modify a.currentProcess Proc.tick).Settled alg := by
    refine h.charge (fun e => ?_) fun _ => rfl
    have := h.initCounter
    rw [e, Proc.tick]
    dsimp only
    omega
  unfold Sched.accountTick onTick
  cases hp : alg.mlPolicy with
  | none => exact htick
  | some policy => exact htick.multilevelOnTick hp

theorem clampLevel_mem {level : Int} (h0 : 0 ≤ level) (hn : level < mlMaxLevels)
    {policy : MultilevelPolicy} (hp : alg.mlPolicy = some policy) :
    0 ≤ clampLevel alg level ∧ clampLevel alg level < policy.nLevels := by
  have hlevels : policy.nLevels = 5 := by
    cases alg with
    | mlq | mlfq => rw [← Option.some.inj hp]; rfl
    | _ => exact absurd hp (by simp [Algorithm.mlPolicy])
  unfold mlMaxLevels at hn
  rw [clampLevel, hp, hlevels]
  dsimp only
  split <;> omega

/-! ## Creation and parameters -/

theorem register (h : a.Settled alg) (hlaw : a.Law) (hcur : a.currentProcess < a.nProcesses) :
    (a.register alg).Settled alg := by
  have henroll : (a.enroll alg a.child).Settled alg := by
    have hinit : initProcess ≠ a.nProcesses := Nat.ne_of_lt hlaw.initRegistered
    refine ⟨?_, ?_, fun q hq => ?_, fun policy hp q => ?_, h.lists⟩
    · rw [proc_enroll, if_neg hinit]; exact h.initCounter
    · rw [proc_enroll, if_neg hinit]; exact h.initPriority
    · rw [proc_enroll]
      split
      next => exact h.priority _ hcur
      next hne => exact h.priority q (Nat.lt_of_le_of_ne (Nat.lt_succ_iff.mp hq) hne)
    · refine (h.setLevel a.nProcesses fun policy hp => ?_).level policy hp q
      exact clampLevel_mem (by unfold mlMaxLevels; omega) (by unfold mlMaxLevels; omega) hp
  exact henroll.enqueue _

theorem copyProcess (h : a.Settled alg) (hlaw : a.Law) (hcur : a.Current) (page : Bool) :
    (a.copyProcess alg page).Settled alg := by
  unfold Sched.copyProcess
  dsimp only
  split
  next => exact h.preemptDisable
  next =>
    exact (h.preemptDisable.register hlaw.calm_preemptDisable.law hcur.registered).preemptEnable

theorem schedSetParam (h : a.Settled alg) (p : Pid) (param value : Int) :
    (a.schedSetParam alg p param value).Settled alg := by
  unfold Sched.schedSetParam
  split
  next => exact h
  next hinit =>
    split
    next =>
      split
      next => exact h
      next hv =>
        exact h.modify (fun e => absurd e hinit) fun _ => Int.not_lt.mp hv
    next =>
      split
      next =>
        split
        next => exact h
        next => exact h.frame (fun _ => rfl) fun _ => rfl
      next =>
        split
        next =>
          split
          next => exact h
          next hv =>
            have hmod : (a.modify p fun b =>
                { b with queuePriority := clampLevel alg value }).Settled alg :=
              h.frame (fun _ => rfl) fun _ => rfl
            refine hmod.setLevel p fun policy hp => ?_
            exact clampLevel_mem (by omega) (by omega) hp
        next => exact h

/-! ## Decisions -/

theorem contest (h : a.Settled alg) : (a.contest alg).Settled alg := by
  unfold Sched.contest requeueCurrent
  split
  next => exact h.preemptDisable.enqueue _
  next => exact h.preemptDisable

/-- A choice does not fall on init. -/
theorem next_ne_init {c : Choice} (hlaw : a.Law) (hc : c.Sound alg a) :
    c.next ≠ some initProcess := by
  intro hn
  obtain ⟨l, hl⟩ := hc.visited _ (hc.next _ hn).1
  exact (hlaw.queued l _ hl).1 rfl

/-- The counter that a choice leaves to init. -/
theorem counter_select (h : a.Settled alg) (hlaw : a.Law) {c : Choice}
    (hc : a.select alg = some c) : c.counter initProcess ≤ 1 := by
  have hne := next_ne_init hlaw (select_sound hlaw.lists hc)
  have hfront : ∀ ps quantum, a.frontChoice ps quantum = c → c.counter initProcess ≤ 1 := by
    rintro ps quantum rfl
    exact (if_neg hne).trans_le h.initCounter
  cases alg with
  | roundRobin | fcfs | sjf | mlq | mlfq => exact hfront _ _ (Option.some.inj hc)
  | lottery =>
      obtain rfl := Option.some.inj hc
      exact (if_neg hne).trans_le h.initCounter
  | priorityAging =>
      obtain ⟨r, hr, rfl⟩ := Option.map_eq_some_iff.mp hc
      refine chooseRichest_invariant (P := fun counter => counter initProcess ≤ 1) ?_
        h.initCounter hr
      intro counter hcounter
      have hinit : a.recharge counter initProcess = counter initProcess / 2 + 1 := by
        rw [← h.initPriority]
        exact if_pos hlaw.initRegistered
      omega

theorem dispatch (h : a.Settled alg) {c : Choice} (hc : c.counter initProcess ≤ 1) :
    (a.dispatch c).Settled alg := by
  have hcounter : ∀ p, ((a.dispatch c).proc p).counter = c.counter p := fun p =>
    field_dispatch a c p Proc.counter (fun _ _ => rfl) fun _ _ => rfl
  have hpriority : ∀ p, ((a.dispatch c).proc p).priority = (a.proc p).priority := by
    intro p
    rw [field_dispatch a c p Proc.priority (fun _ _ => rfl) fun _ _ => rfl, proc_commit]
    split
    next => exact Proc.priority_handled _
    next => rfl
  refine ⟨?_, ?_, fun p hp => ?_, h.level, fun l p hl => ?_⟩
  · rw [hcounter]; exact hc
  · rw [hpriority]; exact h.initPriority
  · rw [hpriority]; exact h.priority p hp
  · exact h.lists l p (mem_list_commit.mp hl).1

theorem die (h : a.Settled alg) : a.die.Settled alg := h.frame (fun _ => rfl) fun _ => rfl

theorem retireCurrent (h : a.Settled alg) : (a.retireCurrent alg).Settled alg := by
  have hc : ∀ b : Proc, b.endWait.counter = b.counter := fun _ => rfl
  exact (h.preemptDisable.die.wakeAll hc (fun _ => rfl) _).preemptEnable

theorem before (h : a.Settled alg) (hlaw : a.Law) (hcur : a.Current) (op : Op) :
    (a.before alg op).Settled alg := by
  cases op with
  | timerTick =>
      simp only [Sched.before]
      split
      next => exact h.accountTick.setCounter _
      next => exact h.accountTick
  | uartIrq mis fifo => exact h.handleUartIrq mis fifo
  | yield => exact (h.setCounter _).closeBurst
  | block why =>
      have hblock : (a.block why).Settled alg := h.frame (fun _ => rfl) fun _ => rfl
      exact hblock.closeBurst
  | wait pid =>
      simp only [Sched.before]
      split
      next =>
        have hwait : (a.waitFor pid).Settled alg := h.frame (fun _ => rfl) fun _ => rfl
        exact hwait.closeBurst
      next => exact h
  | exit => exact h.retireCurrent.closeBurst
  | copyProcess page => exact h.copyProcess hlaw hcur page
  | wakeReceiver p =>
      simp only [Sched.before, wakeReceiver]
      split
      next =>
        have hc : ∀ b : Proc, b.makeReady.counter = b.counter := fun _ => rfl
        exact h.wake p hc fun _ => rfl
      next => exact h
  | wakeSenders =>
      have hc : ∀ b : Proc, b.makeReady.counter = b.counter := fun _ => rfl
      exact h.wakeAll hc (fun _ => rfl) _
  | sendSignal p k =>
      rw [Sched.before, sendSignal]
      exact h.frame (fun _ => rfl) fun _ => rfl
  | setParam p param value => exact h.schedSetParam p param value

theorem step (h : a.Settled alg) (hlaw : a.Law) (hcur : a.Current) {op : Op}
    (hop : op.Enabled a.toGlobals) (hb : a.step alg op = some b) : b.Settled alg := by
  have hbefore := h.before hlaw hcur op
  rcases hlaw.step_cases hcur hop hb with ⟨_, c, hd⟩ | ⟨_, rfl⟩
  · rw [hd.result]
    exact hbefore.contest.dispatch (hbefore.contest.counter_select hd.contest hd.selected)
  · exact hbefore

/-! ## Every selection returns -/

theorem select_isSome (h : a.Settled alg) (hlaw : a.Law) : (a.select alg).isSome :=
  hlaw.lists.select_isSome fun _ => h.priority

end Settled

/-! ## The tick that ends the idling -/

variable {alg : Algorithm} {a b : Sched} {p : Pid} {l : ReadyList}

/-- The process that a decision dispatches when a list it selects from has one
that no signal takes away. -/
theorem Decides.busy {c : Choice} (h : Decides alg a b c) (hs : (a.contest alg).Settled alg)
    (hi : p ≠ initProcess) (hlt : p < a.nProcesses) (hp : (a.proc p).state = .ready)
    (hb : (a.proc p).barred = false) : b.currentProcess ≠ initProcess := by
  have hready : ((a.contest alg).proc p).state = .ready := by
    rw [state_contest, if_neg fun hn => absurd (hp.symm.trans hn.2.2) (by decide), hp]
  have hbarred : ((a.contest alg).proc p).barred = false := by
    rw [← hb]
    exact field_contest a alg p (·.barred) (fun _ _ => rfl) fun _ _ => rfl
  obtain ⟨l, hl⟩ := h.contest.linked p hi (by rw [toGlobals_contest]; exact hlt) hready
  have hcur : b.currentProcess = c.target := by rw [h.result]; rfl
  rw [hcur, Choice.target]
  cases hn : c.next with
  | none =>
      have := h.sound.idle hn l (hs.lists l p hl) p hl
      rw [hbarred] at this
      exact absurd this (by simp)
  | some q =>
      intro e
      exact Settled.next_ne_init h.contest h.sound (hn.trans (congrArg some e))

/-- Under a preemptive algorithm the tick takes the CPU from init, if a process
that no signal takes away is queued. -/
theorem Settled.idle_tick (h : a.Settled alg) (hlaw : a.Law) (hcur : a.Current)
    (halg : alg.isPreemptive = true) (hi : a.currentProcess = initProcess)
    (hg : a.current.preemptDisabled = 0) (hp : p ∈ a.list l) (hb : (a.proc p).barred = false) :
    ∃ b, a.step alg .timerTick = some b ∧ b.currentProcess ≠ initProcess := by
  obtain ⟨hinit, hlt, hready⟩ := hlaw.queued l p hp
  obtain ⟨hproc, hcurrent⟩ := accountTick_frame alg a
  have hover : (a.accountTick alg).sliceOver = true := by
    have hcounter : a.current.counter - 1 ≤ 0 := by
      rw [Sched.current, hi]
      have := h.initCounter
      omega
    rw [sliceOver, current_accountTick, Proc.tick, hg]
    simpa using hcounter
  have hbefore : (a.before alg .timerTick).proc p = a.proc p := by
    have hne : p ≠ a.currentProcess := hi ▸ hinit
    rw [Sched.before, if_pos hover, Sched.setCounter, proc_modify, hcurrent, if_neg hne, hproc,
      proc_modify, if_neg hne]
  have hop : Op.timerTick.Enabled a.toGlobals := trivial
  have hcalm : a.Calm (a.before alg .timerTick) := hlaw.calm_before alg hcur hop
  have hsettled := (h.before hlaw hcur .timerTick).contest
  have hcontest := hcalm.law.contest (hlaw.outgoing_before hcur trivial) alg
  obtain ⟨c, hc⟩ := Option.isSome_iff_exists.mp (hsettled.select_isSome hcontest)
  have hpick : (a.before alg .timerTick).pickNext alg =
      some (((a.before alg .timerTick).contest alg).dispatch c) := by
    rw [Sched.pickNext, hc]
    rfl
  refine ⟨_, (if_pos ?_).trans hpick, ?_⟩
  · rw [decides, hover, halg]
    rfl
  · obtain ⟨c', hd⟩ := hcalm.law.pickNext (hlaw.outgoing_before hcur trivial) hpick
    refine hd.busy hsettled hinit ?_ (hbefore ▸ hready) (hbefore ▸ hb)
    exact Nat.lt_of_lt_of_le hlt hcalm.nProcesses

end Sched

/-! ## Idling in the runs of the code -/

/-- The states of the runs from boot. -/
def BootReachable (alg : Algorithm) : KState → Prop :=
  Transition.Reachable (fun s => ∃ timer, s = boot timer) (Next alg)

theorem settled_boot (alg : Algorithm) (timer : Nat → BitVec 32) :
    (boot timer).abstract.Settled alg where
  initCounter := le_rfl
  initPriority := rfl
  priority _ _ := le_rfl
  level policy hp p := by
    cases alg with
    | mlq | mlfq => rw [← Option.some.inj hp]; exact ⟨le_rfl, Int.natCast_pos.mpr (Nat.succ_pos 4)⟩
    | _ => exact absurd hp (by simp [Algorithm.mlPolicy])
  lists l p hp := absurd hp List.not_mem_nil

theorem BootReachable.settled {alg : Algorithm} {s : KState} (h : BootReachable alg s) :
    ∃ a, Represents s a ∧ a.Settled alg := by
  obtain ⟨_, ⟨timer, rfl⟩, hrun⟩ := h
  exact (represents_boot timer).run (settled_boot alg timer) hrun
    fun a op b hlaw hcur hI hop hb => hI.step hlaw hcur hop hb

/-- A process that could run is queued, and init idles outside of any critical
section. -/
structure IdleWithWork (s : KState) : Prop where
  idle : s.currentProcess = initProcess
  unguarded : s.current.preemptDisabled = 0
  work : ∃ l, ∃ p ∈ s.contents l,
    (s.pcb p).pending signalKill = false ∧ (s.pcb p).pending signalStop = false

/-- The next tick takes the CPU from init exactly under the preemptive
algorithms. -/
theorem idle_tick_iff {alg : Algorithm} {s : KState} (h : BootReachable alg s)
    (hs : IdleWithWork s) :
    (∃ s', handleTimerTick alg s = some s' ∧ s'.currentProcess ≠ initProcess) ↔
      alg.isPreemptive = true := by
  obtain ⟨a, ha, hsettled⟩ := h.settled
  have hop : Op.timerTick.Enabled s.toGlobals := trivial
  have hop' : Op.timerTick.Enabled a.toGlobals := trivial
  have hi : a.currentProcess = initProcess := ha.refines.currentProcess ▸ hs.idle
  constructor
  · rintro ⟨s', hs', hne⟩
    by_contra halg
    obtain ⟨b, hb, hrep⟩ := ha.step hop hs'
    rcases ha.law.step_cases ha.current hop' hb with ⟨hd, _⟩ | ⟨_, rfl⟩
    · rw [Sched.decides, Bool.eq_false_iff.mpr halg, Bool.and_false] at hd
      exact absurd hd (by simp)
    · have hcalm : a.Calm (a.before alg .timerTick) := ha.law.calm_before alg ha.current hop'
      rw [hrep.refines.currentProcess] at hne
      exact hne (hcalm.currentProcess.trans hi)
  · intro halg
    obtain ⟨l, p, hp, hk, hstop⟩ := hs.work
    have hbarred : (a.proc p).barred = false := by
      rw [← ha.refines.proc, Proc.barred, hk, hstop]
      rfl
    have hguard : a.current.preemptDisabled = 0 := by
      rw [← ha.refines.current]
      exact hs.unguarded
    obtain ⟨b, hb, hne⟩ := hsettled.idle_tick ha.law ha.current halg hi hguard
      (ha.contents_eq l ▸ hp) hbarred
    obtain ⟨s', hs', hrep⟩ := ha.step_exists hop hb
    exact ⟨s', hs', by rw [hrep.refines.currentProcess]; exact hne⟩

/-- Under FCFS the first process of the system never gets the CPU. -/
theorem idle_fcfs : ∃ s s', afterBoot .fcfs [.copyProcess true] = some s ∧
    BootReachable .fcfs s ∧ IdleWithWork s ∧ handleTimerTick .fcfs s = some s' ∧
    s'.currentProcess = initProcess := by
  obtain ⟨s, hs, _, ⟨hi, hg, hp, hk, hstop⟩, htick⟩ := exists_afterBoot .fcfs [.copyProcess true]
    (fun s => (s.currentProcess = initProcess ∧ s.current.preemptDisabled = 0 ∧
        1 ∈ s.contents .readyQueue ∧ (s.pcb 1).pending signalKill = false ∧
        (s.pcb 1).pending signalStop = false) ∧
      (handleTimerTick .fcfs s).any fun s' => s'.currentProcess = initProcess)
    (by decide +kernel)
  obtain ⟨s', hs', hcur⟩ := (Option.any_eq_true _ _).mp htick
  exact ⟨s, s', hs, ⟨_, ⟨_, rfl⟩, run_runOps hs⟩, ⟨hi, hg, _, _, hp, hk, hstop⟩, hs',
    of_decide_eq_true hcur⟩

/-- Under priority aging the first tick dispatches it. -/
theorem idle_tick_aging : ∃ s s', afterBoot .priorityAging [.copyProcess true] = some s ∧
    handleTimerTick .priorityAging s = some s' ∧ s'.currentProcess ≠ initProcess := by
  obtain ⟨s, hs, _, hi, hg, hp, hk, hstop⟩ := exists_afterBoot .priorityAging [.copyProcess true]
    (fun s => s.currentProcess = initProcess ∧ s.current.preemptDisabled = 0 ∧
      1 ∈ s.contents .readyQueue ∧ (s.pcb 1).pending signalKill = false ∧
      (s.pcb 1).pending signalStop = false) (by decide +kernel)
  obtain ⟨s', hs', hne⟩ := (idle_tick_iff ⟨_, ⟨_, rfl⟩, run_runOps hs⟩
    ⟨hi, hg, _, _, hp, hk, hstop⟩).mpr rfl
  exact ⟨s, s', hs, hs', hne⟩

end Demoos
