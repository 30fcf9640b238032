import Demoos.Scheduler.Idle
import Demoos.Scheduler.Locality

/-!
# A decision loses nobody

What a decision does to the processes it is about, from any state in which the
queues of its algorithm are in order.  These are the queued processes, and the
outgoing one if it still runs.  One of them is dispatched, those that a signal takes
away are dropped, and the others stay where they are.

The state need not come from a run: processes may be ready without being queued,
and the queues of the other algorithms may hold anything.
-/

namespace Demoos

open LinkedQueue
open Sched (served)

/-! ## The fate of a process in the contest -/

namespace Sched

variable {alg : Algorithm} {a : Sched} {c : Choice} {p : Pid} {l : ReadyList}

theorem Lists.next_ne_init (h : a.Lists) (hc : c.Sound alg a) (hn : c.next = some p) :
    p ≠ initProcess := by
  obtain ⟨l, hl⟩ := hc.visited p (hc.next p hn).1
  exact (h.queued l p hl).1

theorem target_of_next (hn : c.next = some p) : c.target = p := by
  rw [Choice.target, hn]
  rfl

/-- Init is dispatched if nobody is chosen. -/
theorem Lists.target_eq_init (h : a.Lists) (hc : c.Sound alg a) :
    c.target = initProcess ↔ c.next = none := by
  cases hn : c.next with
  | none => exact ⟨fun _ => rfl, fun _ => by rw [Choice.target, hn]; rfl⟩
  | some p =>
      rw [target_of_next hn]
      exact ⟨fun he => absurd he (h.next_ne_init hc hn), fun he => by cases he⟩

/-- A queued process is dispatched if it is the chosen one. -/
theorem Lists.target_iff (h : a.Lists) (hp : p ∈ a.list l) :
    p = c.target ↔ c.next = some p := by
  constructor
  · intro he
    cases hn : c.next with
    | none =>
        have hinit : c.target = initProcess := by rw [Choice.target, hn]; rfl
        exact absurd (he.trans hinit) (h.queued l p hp).1
    | some q => rw [he, target_of_next hn]
  · intro hn
    exact (target_of_next hn).symm

/-- The three things that a decision does to a queued process. -/
theorem Lists.fate (h : a.Lists) (hc : c.Sound alg a) (hp : p ∈ a.list l) :
    (p = c.target ∧ ((a.dispatch c).proc p).state = .running ∧ (a.proc p).barred = false ∧
      (a.dispatch c).Unlinked p) ∨
    (p ≠ c.target ∧ ((a.dispatch c).proc p).state =
        (if (a.proc p).pending signalKill then .zombie else .stopped) ∧
      (a.proc p).barred = true ∧ (a.dispatch c).Unlinked p) ∨
    (p ≠ c.target ∧ ((a.dispatch c).proc p).state = .ready ∧ p ∈ (a.dispatch c).list l) := by
  have hready := (h.queued l p hp).2.2
  by_cases hn : c.next = some p
  · refine .inl ⟨(target_of_next hn).symm, ?_, (hc.next p hn).2, fun l' hl' => ?_⟩
    · rw [state_dispatch, if_pos (target_of_next hn).symm]
    · exact (mem_list_commit.mp hl').2.2 hn
  · have hne : p ≠ c.target := fun he => hn ((h.target_iff hp).mp he)
    by_cases hb : p ∈ c.visited ∧ (a.proc p).barred = true
    · have hstate := Proc.state_handled_of_barred hb.2
      refine .inr (.inl ⟨hne, ?_, hb.2, fun l' hl' => (mem_list_commit.mp hl').2.1 hb⟩)
      have hcommit : ((a.commit c).proc p).state = (a.proc p).handled.state := by
        rw [state_commit, if_pos hb.1]
      rw [state_dispatch, if_neg hne, hcommit, if_neg fun hr => hstate.2 hr.2, Proc.state_handled]
      split
      next => rfl
      next hk =>
        have hstop : (a.proc p).pending signalStop = true :=
          (Bool.or_eq_true_iff.mp hb.2).resolve_left hk
        rw [if_pos hstop]
    · have hcommit : ((a.commit c).proc p).state = .ready := by
        rw [state_commit]
        split
        next hv =>
          have hnb : (a.proc p).barred = false := by simpa using fun hbb => hb ⟨hv, hbb⟩
          rw [Proc.state_handled_of_not_barred hnb, hready]
        next => exact hready
      refine .inr (.inr ⟨hne, ?_, mem_list_commit.mpr ⟨hp, hb, hn⟩⟩)
      rw [state_dispatch, if_neg hne, hcommit, if_neg fun hr => absurd hr.2 (by decide)]

/-- Insertion leaves the others in their order. -/
theorem filter_place (alg : Algorithm) (est : Pid → Int) {xs : List Pid} (hp : p ∉ xs) :
    (place alg est p xs).filter (· ∈ xs) = xs := by
  have hself : ∀ ys : List Pid, ys ⊆ xs → ys.filter (· ∈ xs) = ys := fun ys hys =>
    List.filter_eq_self.mpr fun q hq => decide_eq_true (hys hq)
  cases alg with
  | sjf =>
      change (xs.orderedInsert _ p).filter _ = xs
      rw [List.orderedInsert_eq_take_drop, List.filter_append,
        List.filter_cons_of_neg (by simpa using hp), hself _ (List.takeWhile_subset _),
        hself _ (List.dropWhile_subset _), List.takeWhile_append_dropWhile]
  | _ =>
      change (xs ++ [p]).filter _ = xs
      rw [List.filter_append, hself xs (List.Subset.refl xs),
        List.filter_cons_of_neg (by simpa using hp)]
      exact List.append_nil xs

theorem Lists.order_contest (h : a.Lists) (l : ReadyList) :
    ((a.contest alg).list l).filter (· ∈ a.list l) = a.list l := by
  have hself : (a.list l).filter (· ∈ a.list l) = a.list l :=
    List.filter_eq_self.mpr fun q hq => decide_eq_true hq
  unfold Sched.contest requeueCurrent
  split
  next hr =>
    have hstate : a.preemptDisable.current.state = a.current.state :=
      a.state_preemptDisable _
    have hout : a.currentProcess ∉ a.list l := by
      intro hl
      have hready := (h.queued l _ hl).2.2
      rw [← current, ← hstate, hr.2] at hready
      exact absurd hready (by decide)
    rw [enqueue, if_neg hr.1, list_setList]
    split
    next he =>
      rw [← he]
      exact filter_place alg _ hout
    next => exact hself
  next => exact hself

/-- The processes that stay in a list keep their order. -/
theorem Lists.order_dispatch (h : a.Lists) (c : Choice) (l : ReadyList) :
    ((((a.contest alg).dispatch c).list l).filter (· ∈ a.list l)).Sublist (a.list l) := by
  change ((((a.contest alg).list l).filter _).filter _).Sublist _
  rw [List.filter_comm, h.order_contest]
  exact List.filter_sublist

end Sched

/-! ## The state of a decision -/

/-- The queue that `enqueue` puts a process in. -/
def KState.home (alg : Algorithm) (s : KState) (p : Pid) : ReadyList :=
  match alg.mlPolicy with
  | none => .readyQueue
  | some _ => .mlQueues (s.queueLevel p)

/-- `p` is queued in `l`, or it goes back into it because it is still running. -/
def Files (alg : Algorithm) (s : KState) (l : ReadyList) (p : Pid) : Prop :=
  p ∈ s.contents l ∨
    p = s.currentProcess ∧ p ≠ initProcess ∧ (s.pcb p).state = .running ∧ l = s.home alg p

/-- A signal that takes a ready process away is pending. -/
def Barred (s : KState) (p : Pid) : Prop :=
  (s.pcb p).pending signalKill = true ∨ (s.pcb p).pending signalStop = true

/-- The queues that a pick function selects from are in order. -/
structure Eligible (alg : Algorithm) (s : KState) : Prop where
  table : s.ProcessTable
  registered : s.processes s.currentProcess = some s.currentProcess
  wellFormed : ∀ l ∈ served alg, s.WellFormed l
  apart : ∀ l ∈ served alg, ∀ l' ∈ served alg, ∀ p, p ∈ s.contents l → p ∈ s.contents l' → l = l'
  queued : ∀ l ∈ served alg, ∀ p ∈ s.contents l,
    p ≠ initProcess ∧ s.processes p = some p ∧ (s.pcb p).state = .ready
  level : s.currentProcess ≠ initProcess → s.current.state = .running →
    s.home alg s.currentProcess ∈ served alg
  -- `ml_queues` has `n_levels` entries
  others : ∀ l, alg.uses l = true → l ∉ served alg → s.queue l = Ends.empty
  priority : alg = .priorityAging → ∀ p, s.processes p = some p → 1 ≤ (s.pcb p).priority

/-- What becomes of the processes that a decision from `s` to `t` is about. -/
structure Conserved (alg : Algorithm) (s t : KState) : Prop where
  fate : ∀ l ∈ served alg, ∀ p, Files alg s l p →
    (p = t.currentProcess ∧ (t.pcb p).state = .running ∧ ¬ Barred s p ∧
      ∀ l' ∈ served alg, p ∉ t.contents l') ∨
    (p ≠ t.currentProcess ∧ Barred s p ∧
      (t.pcb p).state = (if (s.pcb p).pending signalKill then .zombie else .stopped) ∧
      ∀ l' ∈ served alg, p ∉ t.contents l') ∨
    (p ≠ t.currentProcess ∧ (t.pcb p).state = .ready ∧
      ∀ l' ∈ served alg, p ∈ t.contents l' ↔ l' = l)
  dispatched : t.currentProcess ≠ initProcess → ∃ l ∈ served alg, Files alg s l t.currentProcess
  linked : ∀ l ∈ served alg, ∀ p ∈ t.contents l, Files alg s l p
  wellFormed : ∀ l ∈ served alg, t.WellFormed l
  order : ∀ l ∈ served alg, ((t.contents l).filter (· ∈ s.contents l)).Sublist (s.contents l)
  idle : t.currentProcess = initProcess ↔ ∀ l ∈ served alg, ∀ p, Files alg s l p → Barred s p

theorem uses_of_served {alg : Algorithm} {l : ReadyList} (hl : l ∈ served alg) :
    alg.uses l = true := by
  unfold served at hl
  unfold Algorithm.uses
  cases hp : alg.mlPolicy with
  | none =>
      rw [hp] at hl
      rw [List.mem_singleton.mp hl]
  | some policy =>
      rw [hp] at hl
      obtain ⟨q, _, rfl⟩ := List.mem_map.mp hl
      rfl

theorem contents_restrict (s : KState) {r : ReadyList → Bool} {l : ReadyList} (hl : r l = true) :
    (s.restrict r).contents l = s.contents l := by
  rw [KState.contents, KState.queue_restrict s hl]
  rfl

theorem contents_of_empty {s : KState} {l : ReadyList} (hl : s.queue l = Ends.empty) :
    s.contents l = [] := by
  rw [KState.contents, hl]
  rfl

namespace Eligible

variable {alg : Algorithm} {s : KState} {l : ReadyList} {p : Pid}

/-- Restricted to its algorithm the state has no queues but the served ones. -/
theorem queue_of_not_served (h : Eligible alg s) (hl : l ∉ served alg) :
    (s.restrict alg.uses).queue l = Ends.empty := by
  cases hu : alg.uses l with
  | true =>
      rw [KState.queue_restrict s hu]
      exact h.others l hu hl
  | false => exact if_neg (by rw [hu]; exact Bool.false_ne_true)

theorem mem_served (h : Eligible alg s) (hp : p ∈ (s.restrict alg.uses).contents l) :
    l ∈ served alg ∧ p ∈ s.contents l := by
  by_cases hl : l ∈ served alg
  · rw [contents_restrict s (uses_of_served hl)] at hp
    exact ⟨hl, hp⟩
  · rw [contents_of_empty (h.queue_of_not_served hl)] at hp
    exact absurd hp List.not_mem_nil

theorem refines (h : Eligible alg s) :
    Refines (s.restrict alg.uses) (s.restrict alg.uses).abstract where
  globals := rfl
  proc _ := rfl
  holds l := by
    change Holds (s.restrict alg.uses).links _ ((s.restrict alg.uses).contents l)
    by_cases hl : l ∈ served alg
    · have hu := uses_of_served hl
      rw [contents_restrict s hu, KState.queue_restrict s hu]
      exact ⟨(h.wellFormed l hl).path, (h.wellFormed l hl).last⟩
    · have hempty := h.queue_of_not_served hl
      rw [contents_of_empty hempty, hempty]
      exact ⟨rfl, rfl⟩
  apart l l' p hp hp' := by
    obtain ⟨hl, hp⟩ := h.mem_served hp
    obtain ⟨hl', hp'⟩ := h.mem_served hp'
    exact h.apart l hl l' hl' p hp hp'

theorem lists (h : Eligible alg s) : (s.restrict alg.uses).abstract.Lists where
  initRegistered := h.table.initRegistered
  bound := h.table.bound
  table := h.table.slots
  nodup l := by
    change ((s.restrict alg.uses).contents l).Nodup
    by_cases hl : l ∈ served alg
    · rw [contents_restrict s (uses_of_served hl)]
      exact (h.wellFormed l hl).nodup
    · rw [contents_of_empty (h.queue_of_not_served hl)]
      exact List.nodup_nil
  apart l l' p hp hp' := h.refines.apart l l' p hp hp'
  queued l p hp := by
    obtain ⟨hl, hp⟩ := h.mem_served hp
    obtain ⟨hi, hreg, hs⟩ := h.queued l hl p hp
    exact ⟨hi, h.table.registered_iff.mp hreg, hs⟩

/-- The lists of the contest are what `Files` says. -/
theorem mem_contest (h : Eligible alg s) :
    p ∈ ((s.restrict alg.uses).abstract.contest alg).list l ↔
      l ∈ served alg ∧ Files alg s l p := by
  have hhome : (s.restrict alg.uses).abstract.home alg p = s.home alg p := by
    cases alg <;> rfl
  rw [Sched.mem_list_contest, hhome]
  constructor
  · rintro (hp | ⟨rfl, hi, hs, rfl⟩)
    · obtain ⟨hl, hp⟩ := h.mem_served hp
      exact ⟨hl, .inl hp⟩
    · exact ⟨h.level hi hs, .inr ⟨rfl, hi, hs, rfl⟩⟩
  · rintro ⟨hl, hp | hout⟩
    · refine .inl ?_
      change p ∈ (s.restrict alg.uses).contents l
      rw [contents_restrict s (uses_of_served hl)]
      exact hp
    · exact .inr hout

theorem current_lt (h : Eligible alg s) :
    (s.restrict alg.uses).abstract.currentProcess < (s.restrict alg.uses).abstract.nProcesses :=
  h.table.registered_iff.mp h.registered

theorem contest (h : Eligible alg s) : ((s.restrict alg.uses).abstract.contest alg).Lists :=
  h.lists.contest h.current_lt alg

/-- The decision of the code, seen from the abstract scheduler. -/
theorem decision (h : Eligible alg s) :
    ∃ c t, ((s.restrict alg.uses).abstract.contest alg).select alg = some c ∧
      pickNext alg s = some t ∧
      Refines (t.restrict alg.uses) (((s.restrict alg.uses).abstract.contest alg).dispatch c) := by
  have hcontest := h.contest
  have hpriority : alg = .priorityAging → ∀ p,
      p < ((s.restrict alg.uses).abstract.contest alg).nProcesses →
      1 ≤ (((s.restrict alg.uses).abstract.contest alg).proc p).priority := by
    intro ha p hp
    rw [Sched.toGlobals_contest] at hp
    rw [Sched.field_contest _ _ _ Proc.priority (fun _ _ => rfl) fun _ _ => rfl]
    exact h.priority ha p (h.table.registered_iff.mpr hp)
  obtain ⟨c, hc⟩ := Option.isSome_iff_exists.mp (hcontest.select_isSome hpriority)
  have hpick := h.refines.dispatches alg h.lists h.current_lt
  rw [pickNext_restrict, hc] at hpick
  cases ht : pickNext alg s with
  | none => rw [ht] at hpick; cases hpick
  | some t =>
      rw [ht] at hpick
      cases hpick with
      | some href => exact ⟨c, t, hc, rfl, href⟩

/-- The contest leaves the signals alone. -/
theorem barred_contest (alg : Algorithm) (s : KState) (p : Pid) :
    (((s.restrict alg.uses).abstract.contest alg).proc p).barred = true ↔ Barred s p := by
  have hbarred : (((s.restrict alg.uses).abstract.contest alg).proc p).barred =
      (s.pcb p).toProc.barred :=
    Sched.field_contest _ alg p (·.barred) (fun _ _ => rfl) fun _ _ => rfl
  rw [hbarred, Proc.barred, Bool.or_eq_true]
  rfl

theorem kill_contest (alg : Algorithm) (s : KState) (p : Pid) :
    (((s.restrict alg.uses).abstract.contest alg).proc p).pending signalKill =
      (s.pcb p).pending signalKill :=
  Sched.field_contest _ alg p (·.pending signalKill) (fun _ _ => rfl) fun _ _ => rfl

section Decision

variable {t : KState} {c : Sched.Choice}
  (href : Refines (t.restrict alg.uses) (((s.restrict alg.uses).abstract.contest alg).dispatch c))

include href

theorem contents_dispatch (h : Eligible alg s) (hl : l ∈ served alg) :
    t.contents l = (((s.restrict alg.uses).abstract.contest alg).dispatch c).list l := by
  rw [← contents_restrict t (uses_of_served hl)]
  refine (href.holds l).walk_eq (Nat.le_trans ?_ (h.contest.length_le l))
  exact List.length_filter_le _ _

theorem conserved (h : Eligible alg s)
    (hc : ((s.restrict alg.uses).abstract.contest alg).select alg = some c) :
    Conserved alg s t := by
  have hsound := Sched.select_sound h.contest hc
  have hcurrent : t.currentProcess = c.target := href.currentProcess
  have hstate : ∀ p, (t.pcb p).state =
      ((((s.restrict alg.uses).abstract.contest alg).dispatch c).proc p).state := fun p =>
    congrArg Proc.state (href.proc p)
  have hmem : ∀ l ∈ served alg, ∀ p, p ∈ t.contents l ↔
      p ∈ (((s.restrict alg.uses).abstract.contest alg).dispatch c).list l := fun l hl p => by
    rw [contents_dispatch href h hl]
  refine ⟨fun l hl p hp => ?_, fun hi => ?_, fun l hl p hp => ?_, fun l hl => ?_, fun l hl => ?_, ?_⟩
  · have hp' := h.mem_contest.mpr ⟨hl, hp⟩
    rw [hcurrent, hstate p]
    rcases h.contest.fate hsound hp' with ⟨he, hs, hb, hu⟩ | ⟨hne, hs, hb, hu⟩ | ⟨hne, hs, hk⟩
    · refine .inl ⟨he, hs, ?_, fun l' hl' hm => hu l' ((hmem l' hl' p).mp hm)⟩
      rw [← barred_contest alg s p, hb]
      exact Bool.false_ne_true
    · rw [kill_contest] at hs
      exact .inr (.inl ⟨hne, (barred_contest alg s p).mp hb, hs,
        fun l' hl' hm => hu l' ((hmem l' hl' p).mp hm)⟩)
    · refine .inr (.inr ⟨hne, hs, fun l' hl' => ⟨fun hm => ?_, fun he => ?_⟩⟩)
      · exact href.apart l' l p ((hmem l' hl' p).mp hm) hk
      · subst he
        exact (hmem l' hl' p).mpr hk
  · rw [hcurrent] at hi ⊢
    cases hn : c.next with
    | none => exact absurd ((h.contest.target_eq_init hsound).mpr hn) hi
    | some p =>
        obtain ⟨l, hl⟩ := hsound.visited p (hsound.next p hn).1
        rw [Sched.target_of_next hn]
        exact ⟨l, h.mem_contest.mp hl⟩
  · exact (h.mem_contest.mp (Sched.mem_list_commit.mp ((hmem l hl p).mp hp)).1).2
  · have hholds := href.holds l
    rw [← contents_dispatch href h hl, KState.queue_restrict t (uses_of_served hl)] at hholds
    have hends : (t.queue l).head = none ↔ (t.queue l).tail = none := by
      rw [hholds.head_eq_none, hholds.tail_eq_none]
    refine ⟨hends, hholds.seg, hholds.tail, ?_⟩
    rw [contents_dispatch href h hl]
    exact (h.contest.nodup l).filter _
  · have horder : (((((s.restrict alg.uses).abstract.contest alg).dispatch c).list l).filter
        (· ∈ (s.restrict alg.uses).abstract.list l)).Sublist
          ((s.restrict alg.uses).abstract.list l) := h.lists.order_dispatch c l
    have hself : (s.restrict alg.uses).abstract.list l = s.contents l :=
      contents_restrict s (uses_of_served hl)
    rw [hself, ← contents_dispatch href h hl] at horder
    exact horder
  · rw [hcurrent, h.contest.target_eq_init hsound]
    constructor
    · intro hn l hl p hp
      exact (barred_contest alg s p).mp (hsound.idle hn l hl p (h.mem_contest.mpr ⟨hl, hp⟩))
    · intro hall
      cases hn : c.next with
      | none => rfl
      | some p =>
          obtain ⟨hv, hb⟩ := hsound.next p hn
          obtain ⟨l, hl⟩ := hsound.visited p hv
          obtain ⟨hl, hp⟩ := h.mem_contest.mp hl
          have hbarred := (barred_contest alg s p).mpr (hall l hl p hp)
          exact absurd (hb.symm.trans hbarred) (by decide)

end Decision

end Eligible

/-- Every pick function returns, and loses, duplicates and skips nobody. -/
theorem conserved_pickNext {alg : Algorithm} {s : KState} (h : Eligible alg s) :
    ∃ t, pickNext alg s = some t ∧ Conserved alg s t := by
  obtain ⟨c, t, hc, ht, href⟩ := h.decision
  exact ⟨t, ht, h.conserved href hc⟩

/-! ## The decisions of the runs -/

/-- In every run from boot the state an operation calls `_schedule` in is one of
those above. -/
theorem BootReachable.eligible {alg : Algorithm} {s : KState} {op : Op} (h : BootReachable alg s)
    (hop : op.Enabled s.toGlobals) : Eligible alg (before alg s op) := by
  obtain ⟨a, ha, hsettled⟩ := h.settled
  have hop' : op.Enabled a.toGlobals := by rw [← ha.refines.globals]; exact hop
  have href := ha.refines.before alg ha.law ha.current op
  have hlaw : (a.before alg op).Law := (ha.law.calm_before alg ha.current hop').law
  have hout : (a.before alg op).Outgoing := ha.law.outgoing_before ha.current hop'
  have hbefore : (a.before alg op).Settled alg := hsettled.before ha.law ha.current op
  generalize a.before alg op = b at href hlaw hout hbefore
  generalize before alg s op = t at href
  have hqueue := href.queueLaw hlaw
  have hregistered : t.processes t.currentProcess = some t.currentProcess := by
    rw [href.currentProcess]
    exact (href.registered_iff hlaw).mpr hout.registered
  have hhome : ∀ p, t.home alg p = b.home alg p := fun p => by
    rw [KState.home, href.queueLevel]
    cases alg <;> rfl
  refine ⟨hqueue.table, hregistered, fun l _ => hqueue.wellFormed l, fun l _ l' _ p hp hp' => ?_,
    fun l _ => hqueue.queued l, fun _ _ => ?_, fun l _ hl => ?_, fun _ p hp => ?_⟩
  · rw [href.contents_eq hlaw] at hp hp'
    exact hlaw.apart l l' p hp hp'
  · rw [hhome]
    exact hbefore.home_mem _
  · have hnil : b.list l = [] :=
      List.eq_nil_iff_forall_not_mem.mpr fun p hp => hl (hbefore.lists l p hp)
    have hholds := href.holds l
    rw [hnil] at hholds
    exact hholds.eq_empty
  · have hpriority : (t.pcb p).priority = (b.proc p).priority :=
      congrArg Proc.priority (href.proc p)
    rw [hpriority]
    exact hbefore.priority p ((href.registered_iff hlaw).mp hp)

/-- Two levels of MLQ, and a process that is killed while it is queued in the first of them. -/
def killing : List Op :=
  [.copyProcess true, .copyProcess true, .timerTick, .setParam 1 schedParamQueuePriority 3,
    .sendSignal 2 signalKill]

/-- The process that runs yields and runs again, and the other one is dropped. -/
theorem conserved_mlq : ∃ s t, afterBoot .mlq killing = some s ∧
    pickNext .mlq (before .mlq s .yield) = some t ∧ Conserved .mlq (before .mlq s .yield) t ∧
    t.currentProcess = 1 ∧ (t.pcb 2).state = .zombie := by
  obtain ⟨s, hs, _, hi, hrun, hdropped⟩ := exists_afterBoot .mlq killing
    (fun s => s.currentProcess ≠ initProcess ∧
      (pickNext .mlq (before .mlq s .yield)).map (·.currentProcess) = some 1 ∧
      (pickNext .mlq (before .mlq s .yield)).map (fun t => (t.pcb 2).state) = some .zombie)
    (by decide +kernel)
  have hboot : BootReachable .mlq s := ⟨_, ⟨_, rfl⟩, run_runOps hs⟩
  obtain ⟨t, ht, hconserved⟩ := conserved_pickNext (hboot.eligible
    (show Op.yield.Enabled s.toGlobals from hi))
  rw [ht] at hrun hdropped
  exact ⟨s, t, hs, ht, hconserved, Option.some.inj hrun, Option.some.inj hdropped⟩

end Demoos
