import Demoos.Scheduler.Conservation
import Demoos.Scheduler.Primitives

/-!
# The selection of priority aging

The loop ends, and where it ends is determined: after the least number of epochs
that brings a candidate to a positive counter, at the first candidate of the
largest counter.  The candidates are the queued processes that no signal takes
away, the outgoing one at the end.

In the runs no counter is above the slice of a new process and twice the largest
priority ever set.
-/

namespace Demoos

/-! ## Candidates and epochs -/

namespace KState

/-- The ready queue, with the outgoing process back in it. -/
def line (s : KState) : List Pid :=
  s.contents .readyQueue ++
    if s.currentProcess ≠ initProcess ∧ s.current.state = .running then [s.currentProcess] else []

/-- The processes of the queue that no signal takes away. -/
def candidates (s : KState) : List Pid := s.line.filter fun p => !(s.pcb p).barred

/-- The counter of `p` after `n` recharges. -/
def epoch (s : KState) (n : Nat) (p : Pid) : Int :=
  (fun c => c / 2 + (s.pcb p).priority)^[n] (s.pcb p).counter

end KState

/-- The decision of priority aging from `s` to `t`, after `n` epochs. -/
structure Epochs (n : Nat) (s t : KState) : Prop where
  due : ∀ m < n, ∀ p ∈ s.candidates, s.epoch m p ≤ 0
  residual : ∀ p ∈ s.candidates, 0 < (s.pcb p).counter → n = 0
  recharged : ∀ p, s.processes p = some p → (t.pcb p).counter = s.epoch n p
  untouched : ∀ p, s.processes p ≠ some p → (t.pcb p).counter = (s.pcb p).counter
  chosen : s.candidates ≠ [] → ∃ pre post, s.candidates = pre ++ t.currentProcess :: post ∧
    0 < s.epoch n t.currentProcess ∧
    (∀ p ∈ pre, s.epoch n p < s.epoch n t.currentProcess) ∧
    ∀ p ∈ post, s.epoch n p ≤ s.epoch n t.currentProcess
  idle : s.candidates = [] → n = 0 ∧ t.currentProcess = initProcess

namespace Sched

variable {a b : Sched} {p : Pid} {op : Op}

theorem line_contest (a : Sched) :
    (a.contest .priorityAging).list .readyQueue = a.list .readyQueue ++
      if a.currentProcess ≠ initProcess ∧ a.current.state = .running then [a.currentProcess]
      else [] := by
  have hstate : a.preemptDisable.current.state = a.current.state :=
    a.state_preemptDisable _
  unfold contest requeueCurrent
  rw [hstate]
  split
  next hr =>
    have hr' : a.currentProcess ≠ initProcess ∧ a.current.state = .running := hr
    rw [if_pos hr', enqueue, if_neg hr.1, list_setList]
    exact if_pos rfl
  next hr =>
    have hr' : ¬ (a.currentProcess ≠ initProcess ∧ a.current.state = .running) := hr
    rw [if_neg hr', List.append_nil]
    rfl

end Sched

namespace Eligible

variable {s t : KState} {c : Sched.Choice}

theorem candidates_contest (s : KState) :
    (((s.restrict Algorithm.priorityAging.uses).abstract.contest .priorityAging).list
      .readyQueue).filter (fun p =>
        !(((s.restrict Algorithm.priorityAging.uses).abstract.contest .priorityAging).proc
          p).barred) = s.candidates := by
  have hbarred : ∀ p,
      (((s.restrict Algorithm.priorityAging.uses).abstract.contest .priorityAging).proc
        p).barred = (s.pcb p).barred := fun p =>
    Sched.field_contest _ _ p (·.barred) (fun _ _ => rfl) fun _ _ => rfl
  simp only [hbarred, Sched.line_contest]
  rfl

/-- The epochs of the abstract choice are those of the code. -/
theorem epochs (h : Eligible .priorityAging s)
    (hc : ((s.restrict Algorithm.priorityAging.uses).abstract.contest .priorityAging).select
      .priorityAging = some c)
    (href : Refines (t.restrict Algorithm.priorityAging.uses)
      (((s.restrict Algorithm.priorityAging.uses).abstract.contest .priorityAging).dispatch c)) :
    ∃ n, Epochs n s t := by
  have hcandidates := candidates_contest s
  have hcurrent : t.currentProcess = c.target := href.currentProcess
  have hcounter : ∀ p, (t.pcb p).counter = c.counter p := fun p => by
    have hproc := congrArg Proc.counter (href.proc p)
    rw [Sched.field_dispatch _ _ _ Proc.counter (fun _ _ => rfl) fun _ _ => rfl] at hproc
    exact hproc
  have hfield : ∀ (g : Proc → Int), (∀ b st, g { b with state := st } = g b) →
      (∀ b n, g { b with preemptDisabled := n } = g b) → ∀ p,
      g (((s.restrict Algorithm.priorityAging.uses).abstract.contest .priorityAging).proc p) =
        g (s.pcb p).toProc := fun g hs hd p => Sched.field_contest _ _ p g hs hd
  have hn : ((s.restrict Algorithm.priorityAging.uses).abstract.contest
      .priorityAging).nProcesses = s.nProcesses := by
    rw [Sched.toGlobals_contest]
    rfl
  generalize (s.restrict Algorithm.priorityAging.uses).abstract.contest .priorityAging = k
    at hc hcandidates hfield hn
  change k.agingChoice = some c at hc
  unfold Sched.agingChoice at hc
  rw [hcandidates] at hc
  obtain ⟨r, hr, rfl⟩ := Option.map_eq_some_iff.mp hc
  obtain ⟨n, hiterate, hdue, hnil, hrich⟩ := Sched.chooseRichest_eq hr
  have hnext := Sched.chooseRichest_next hr
  have hepoch : ∀ m p, s.processes p = some p →
      k.recharge^[m] (fun p => (k.proc p).counter) p = s.epoch m p := by
    intro m p hp
    rw [k.recharge_iterate, if_pos (by rw [hn]; exact h.table.registered_iff.mp hp),
      hfield Proc.counter (fun _ _ => rfl) (fun _ _ => rfl),
      hfield Proc.priority (fun _ _ => rfl) fun _ _ => rfl]
    rfl
  have hregistered : ∀ p ∈ s.candidates, s.processes p = some p := by
    intro p hp
    rcases List.mem_append.mp (List.mem_of_mem_filter hp) with hp | hp
    · exact (h.queued .readyQueue List.mem_cons_self p hp).2.1
    · split at hp
      next =>
        rw [List.mem_singleton.mp hp]
        exact h.registered
      next => exact absurd hp List.not_mem_nil
  have hexhausted : ∀ m < n, ∀ p ∈ s.candidates, s.epoch m p ≤ 0 := by
    intro m hm p hp
    rw [← hepoch m p (hregistered p hp)]
    exact hdue m hm p hp
  refine ⟨n, hexhausted, fun p hp hpos => ?_, fun p hp => ?_, fun p hp => ?_, fun hne => ?_,
    fun he => ?_⟩
  · by_contra hn0
    exact absurd hpos (Int.not_lt.mpr (hexhausted 0 (Nat.pos_of_ne_zero hn0) p hp))
  · rw [hcounter, ← hepoch n p hp]
    exact congrFun hiterate p
  · have hlt : ¬ p < k.nProcesses := fun hlt =>
      hp (h.table.registered_iff.mpr (hn ▸ hlt))
    rw [hcounter]
    refine (congrFun hiterate p).trans ?_
    rw [k.recharge_iterate, if_neg hlt, hfield Proc.counter (fun _ _ => rfl) fun _ _ => rfl]
  · have hsome : r.1 ≠ none := fun he => hne (hnext.2 he)
    obtain ⟨p, hp⟩ := Option.ne_none_iff_exists'.mp hsome
    have htarget : t.currentProcess = p := hcurrent.trans (Sched.target_of_next hp)
    obtain ⟨pre, post, hsplit, hpos, hpre, hpost⟩ :=
      Sched.richest_split (hrich.symm.trans hp)
    have hk : ∀ q ∈ s.candidates, r.2 q = s.epoch n q := fun q hq => by
      rw [← hepoch n q (hregistered q hq)]
      exact congrFun hiterate q
    have hmem : ∀ q, q ∈ pre ∨ q = p ∨ q ∈ post → q ∈ s.candidates := by
      intro q hq
      rw [hsplit, List.mem_append, List.mem_cons]
      exact hq
    rw [htarget]
    rw [hk p (hmem p (.inr (.inl rfl)))] at hpos hpre hpost
    refine ⟨pre, post, hsplit, hpos, fun q hq => ?_, fun q hq => ?_⟩
    · rw [← hk q (hmem q (.inl hq))]
      exact hpre q hq
    · rw [← hk q (hmem q (.inr (.inr hq)))]
      exact hpost q hq
  · refine ⟨hnil he, hcurrent.trans ?_⟩
    cases hr1 : r.1 with
    | none => rfl
    | some p =>
        have hp := hnext.1 p hr1
        rw [he] at hp
        exact absurd hp List.not_mem_nil

end Eligible

/-! ## The bound on the counters -/

/-- A recharge leaves at most the old counter or twice the priority. -/
theorem Proc.counter_recharge_le (b : Proc) :
    b.recharge.counter ≤ max b.counter (2 * b.priority) := by
  change b.counter / 2 + b.priority ≤ _
  omega

/-- No priority above `m` is set. -/
def Op.SetsPriorityAtMost (m : Int) : Op → Prop
  | .setParam _ param value => param = schedParamPriority → value ≤ m
  | _ => True

instance (m : Int) (op : Op) : Decidable (op.SetsPriorityAtMost m) :=
  match op with
  | .setParam _ param value => inferInstanceAs (Decidable (param = schedParamPriority → value ≤ m))
  | .timerTick | .uartIrq _ _ | .yield | .block _ | .wait _ | .exit | .copyProcess _
  | .wakeReceiver _ | .wakeSenders | .sendSignal _ _ => .isTrue trivial

namespace Sched

variable {a b : Sched} {op : Op} {c : Choice} {m : Int}

/-- No slice and no two priorities are above a new slice and twice `m`. -/
def Charged (m : Int) (a : Sched) : Prop := ∀ p, p < a.nProcesses →
  (a.proc p).counter ≤ max 10 (2 * m) ∧ 2 * (a.proc p).priority ≤ max 10 (2 * m)

theorem charged_boot (m : Int) (timer : Nat → BitVec 32) : (boot timer).abstract.Charged m :=
  fun _ _ => ⟨(by decide : (1 : Int) ≤ 10).trans (le_max_left _ _),
    (by decide : (2 * 1 : Int) ≤ 10).trans (le_max_left _ _)⟩

theorem priority_write {p : Pid} {b b' : Proc} (h : b.Write op p b')
    (hop : op.SetsPriorityAtMost m) : b'.priority = b.priority ∨ b'.priority ≤ m := by
  cases h with
  | priority v he hv =>
      subst he
      exact .inr (hop rfl)
  | _ => exact .inl rfl

theorem Charged.prim {alg : Algorithm} (h : a.Charged m) (hop : op.SetsPriorityAtMost m)
    (hb : Prim alg op a b) : b.Charged m := by
  refine hb.forall_proc
    (P := fun r => r.counter ≤ max 10 (2 * m) ∧ 2 * r.priority ≤ max 10 (2 * m)) h ?_
    fun hcur => ⟨le_max_left _ _, (h _ hcur).2⟩
  rintro p r r' hw ⟨hcounter, hpriority⟩
  constructor
  · rcases hw.counter_le with hle | hzero
    · exact hle.trans hcounter
    · rw [hzero]
      exact (by decide : (0 : Int) ≤ 10).trans (le_max_left _ _)
  · rcases priority_write hw hop with heq | hle
    · rw [heq]
      exact hpriority
    · exact (Int.mul_le_mul_of_nonneg_left hle (by decide)).trans (le_max_right _ _)

theorem Charged.dispatch (h : a.Charged m) (hc : a.select .priorityAging = some c) :
    (a.dispatch c).Charged m := by
  change a.agingChoice = some c at hc
  unfold agingChoice at hc
  obtain ⟨r, hr, rfl⟩ := Option.map_eq_some_iff.mp hc
  have hcounter : ∀ p, p < a.nProcesses → r.2 p ≤ max 10 (2 * m) := by
    refine chooseRichest_invariant (P := fun counter => ∀ p, p < a.nProcesses →
      counter p ≤ max 10 (2 * m)) (fun counter hle p hp => ?_) (fun p hp => (h p hp).1) hr
    have hbase := hle p hp
    have hpriority := (h p hp).2
    rw [recharge, if_pos hp]
    omega
  intro p hp
  rw [field_dispatch _ _ _ Proc.counter (fun _ _ => rfl) fun _ _ => rfl,
    field_dispatch _ _ _ Proc.priority (fun _ _ => rfl) fun _ _ => rfl, proc_commit]
  refine ⟨hcounter p hp, ?_⟩
  change 2 * (if p ∈ a.list .readyQueue then (a.proc p).handled else a.proc p).priority ≤ _
  split
  next =>
    rw [Proc.priority_handled]
    exact (h p hp).2
  next => exact (h p hp).2

theorem Charged.step (hlaw : a.Law) (hc : a.Current) (h : a.Charged m)
    (hset : op.SetsPriorityAtMost m) (hop : op.Enabled a.toGlobals)
    (hb : a.step .priorityAging op = some b) : b.Charged m :=
  hlaw.prim_invariant hc hop (fun _ _ hm => hm.prim hset) (fun _ _ _ hs hm => hm.dispatch hs) hb h

end Sched

/-- Where no run has set a priority above `m`, no counter is above the slice of a
new process and twice `m`. -/
theorem counter_le_of_runOps {m : Int} {ops : List Op} {timer : Nat → BitVec 32} {s : KState}
    (hops : ∀ op ∈ ops, op.SetsPriorityAtMost m)
    (hs : runOps .priorityAging ops (boot timer) = some s) {p : Pid}
    (hp : s.processes p = some p) : (s.pcb p).counter ≤ max 10 (2 * m) := by
  obtain ⟨a, ha, hm⟩ := represents_runOps (Sched.charged_boot m timer)
    (fun _ _ _ hlaw hc hm hset hop hb => hm.step hlaw hc hset hop hb) hops hs
  have hcounter : (s.pcb p).counter = (a.proc p).counter :=
    congrArg Proc.counter (ha.refines.proc p)
  rw [hcounter]
  exact (hm p (ha.registered_iff.mp hp)).1

/-! ## The selection -/

/-- The loop of priority aging returns, with the choice and the counters that the
epochs determine, and in the runs the counters are bounded. -/
theorem aging_selection :
    (∀ s, Eligible .priorityAging s →
      ∃ t n, pickNext .priorityAging s = some t ∧ Epochs n s t) ∧
    (∀ b : Proc, b.recharge.counter ≤ max b.counter (2 * b.priority)) ∧
    ∀ (m : Int) (ops : List Op) (timer : Nat → BitVec 32) (s : KState),
      (∀ op ∈ ops, op.SetsPriorityAtMost m) →
      runOps .priorityAging ops (boot timer) = some s →
      ∀ p, s.processes p = some p → (s.pcb p).counter ≤ max 10 (2 * m) := by
  refine ⟨fun s h => ?_, Proc.counter_recharge_le, fun m ops timer s hops hs p hp =>
    counter_le_of_runOps hops hs hp⟩
  obtain ⟨c, t, hc, ht, href⟩ := h.decision
  obtain ⟨n, hn⟩ := h.epochs hc href
  exact ⟨t, n, ht, hn⟩

/-- A child with three times the priority of its parent. -/
def twoSlices : List Op :=
  [.copyProcess true, .timerTick, .copyProcess true, .setParam 2 schedParamPriority 3] ++
    List.replicate 19 .timerTick

/-- With the next tick both have used up their slices, and an epoch begins. -/
theorem aging_selection_three : ∃ s, runOps .priorityAging twoSlices (boot fun _ => 0) = some s ∧
    (∃ t n, pickNext .priorityAging (before .priorityAging s .timerTick) = some t ∧
      Epochs n (before .priorityAging s .timerTick) t ∧ 0 < n) ∧
    ∀ p, s.processes p = some p → (s.pcb p).counter ≤ max 10 (2 * 3) := by
  obtain ⟨s, hs, _, hspent, hqueued⟩ := exists_afterBoot .priorityAging twoSlices
    (fun s => (∀ p ∈ (before .priorityAging s .timerTick).candidates,
      ((before .priorityAging s .timerTick).pcb p).counter ≤ 0) ∧
        (before .priorityAging s .timerTick).candidates ≠ []) (by decide +kernel)
  have hboot : BootReachable .priorityAging s := ⟨_, ⟨_, rfl⟩, run_runOps hs⟩
  obtain ⟨hselect, _, hbound⟩ := aging_selection
  have heligible : Eligible .priorityAging (before .priorityAging s .timerTick) :=
    hboot.eligible trivial
  obtain ⟨t, n, ht, hepochs⟩ := hselect _ heligible
  refine ⟨s, hs, ⟨t, n, ht, hepochs, ?_⟩, fun p hp => hbound 3 _ _ s (by decide) hs p hp⟩
  obtain ⟨pre, post, heq, hpos, _⟩ := hepochs.chosen hqueued
  rcases Nat.eq_zero_or_pos n with rfl | hn
  · have hle := hspent t.currentProcess (by rw [heq]; simp)
    exact absurd hpos (Int.not_lt.mpr hle)
  · exact hn

end Demoos
