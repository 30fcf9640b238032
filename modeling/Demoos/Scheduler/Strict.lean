import Demoos.Scheduler.Conservation

/-!
# Strict priority

The multilevel algorithms dispatch from the first level that has anybody to dispatch, in
the order of its queue, and they do not look at the levels behind it.

The levels that the processes are at are those of the policy, in every state of a run, so
the queues and the quanta that the code indexes exist.
-/

namespace Demoos

open LinkedQueue

/-! ## Levels -/

/-- The indices that the code uses are below `n_levels`. -/
structure InLevels (policy : MultilevelPolicy) (s : KState) : Prop where
  quantum : policy.quantum.length = policy.nLevels
  /-- `queue_level` is the index of an insertion. -/
  level : ∀ p, 0 ≤ s.queueLevel p ∧ s.queueLevel p < policy.nLevels
  unused : ∀ q, q ∉ policy.levels → s.queue (.mlQueues q) = Ends.empty

theorem MultilevelPolicy.pairwise_levels (policy : MultilevelPolicy) :
    policy.levels.Pairwise (· < ·) := by
  refine List.pairwise_map.mpr ?_
  exact List.pairwise_lt_range.imp Int.ofNat_lt.mpr

theorem Algorithm.length_quantum {alg : Algorithm} {policy : MultilevelPolicy}
    (h : alg.mlPolicy = some policy) : policy.quantum.length = policy.nLevels := by
  cases alg with
  | mlq | mlfq => rw [← Option.some.inj h]; rfl
  | _ => exact absurd h (by simp [Algorithm.mlPolicy])

theorem Sched.Settled.inLevels {alg : Algorithm} {policy : MultilevelPolicy} {s : KState} {a : Sched}
    (h : a.Settled alg) (href : Refines s a) (hp : alg.mlPolicy = some policy) :
    InLevels policy s where
  quantum := alg.length_quantum hp
  level p := by
    rw [href.queueLevel]
    exact h.level policy hp p
  unused q hq := by
    have hnil : a.list (.mlQueues q) = [] := by
      refine List.eq_nil_iff_forall_not_mem.mpr fun p hmem => hq ?_
      have hserved := h.lists _ p hmem
      rw [served, hp] at hserved
      obtain ⟨q', hq', he⟩ := List.mem_map.mp hserved
      rwa [← ReadyList.mlQueues.inj he]
    have hholds := href.holds (.mlQueues q)
    rw [hnil] at hholds
    exact hholds.eq_empty

/-! ## The cascade -/

namespace Sched

variable {barred : Pid → Bool} {f : Int → List Pid} {qs : List Int} {p : Pid}

/-- A scan of several lists finds its process in one of them. -/
theorem scan_flatMap (h : (scan barred (qs.flatMap f)).2 = some p) :
    ∃ us q vs, qs = us ++ q :: vs ∧ (∀ q' ∈ us, ∀ x ∈ f q', barred x = true) ∧
      (scan barred (f q)).2 = some p ∧
      (scan barred (qs.flatMap f)).1 = us.flatMap f ++ (scan barred (f q)).1 := by
  induction qs with
  | nil => exact absurd h nofun
  | cons q qs ih =>
      rw [List.flatMap_cons] at h ⊢
      cases hq : (scan barred (f q)).2 with
      | some x =>
          rw [scan_append_some hq] at h ⊢
          obtain rfl := Option.some.inj (hq.symm.trans h)
          exact ⟨[], q, qs, rfl, nofun, hq, rfl⟩
      | none =>
          rw [scan_append_none hq] at h ⊢
          obtain ⟨us, q', vs, rfl, hbarred, hfound, hvisited⟩ := ih h
          refine ⟨q :: us, q', vs, rfl, fun q'' hq'' x hx => ?_, hfound, ?_⟩
          · rcases List.mem_cons.mp hq'' with rfl | hq''
            · exact scan_idle hq hx
            · exact hbarred q'' hq'' x hx
          · rw [hvisited, List.flatMap_cons, List.append_assoc]

end Sched

/-- The state after the outgoing process has gone back into the queue of its level. -/
def parked (s : KState) : KState := requeueCurrent enqueueMultilevel (preemptDisable s)

/-- The decision from the queues of `k` to `t`. -/
inductive StrictPriority (policy : MultilevelPolicy) (k t : KState) : Prop
  | idle : t.currentProcess = initProcess →
      (∀ q ∈ policy.levels, ∀ p ∈ k.contents (.mlQueues q), Barred k p) → StrictPriority policy k t
  | first (q : Int) (pre post : List Pid) : q ∈ policy.levels →
      k.contents (.mlQueues q) = pre ++ t.currentProcess :: post →
      ¬ Barred k t.currentProcess → (∀ p ∈ pre, Barred k p) →
      (∀ q' ∈ policy.levels, q' < q → ∀ p ∈ k.contents (.mlQueues q'), Barred k p) →
      (∀ q', q < q' → t.queue (.mlQueues q') = k.queue (.mlQueues q') ∧
        t.contents (.mlQueues q') = k.contents (.mlQueues q')) →
      (t.pcb t.currentProcess).counter = policy.quantum.getD q.toNat 0 →
      StrictPriority policy k t

namespace Refines

variable {s t : KState} {a : Sched} {policy : MultilevelPolicy} {p : Pid}

theorem barred_iff (h : Refines s a) : (a.proc p).barred = true ↔ Barred s p := by
  rw [← h.proc, Proc.barred, Bool.or_eq_true]
  rfl

theorem contents_lists (h : Refines s a) (hl : a.Lists) (l : ReadyList) :
    s.contents l = a.list l := (h.holds l).walk_eq (hl.length_le l)

/-- The lists behind the level of the choice are as they were. -/
theorem later_level (h : Refines s a) (us : List Int) (q : Int) {q' : Int} {next : Option Pid}
    {visited : List Pid}
    (hvisited : ∀ x ∈ visited, ∃ q'' ∈ us ++ [q], x ∈ a.list (.mlQueues q''))
    (hnext : ∀ x, next = some x → x ∈ visited) (hq' : q' ∉ us ++ [q]) :
    (a.examine visited next).list (.mlQueues q') = a.list (.mlQueues q') := by
  refine List.filter_eq_self.mpr fun x hx => ?_
  have hnot : x ∉ visited := fun hv => by
    obtain ⟨q'', hq'', hx'⟩ := hvisited x hv
    exact hq' (ReadyList.mlQueues.inj (h.apart _ _ x hx hx') ▸ hq'')
  have hne : next ≠ some x := fun he => hnot (hnext x he)
  simp [hnot, hne]

/-- The choice of the abstract scheduler is strict. -/
theorem strictPriority (h : Refines s a) (hl : a.Lists)
    (ht : Refines t (a.dispatch (a.multilevelChoice policy))) : StrictPriority policy s t := by
  have hcurrent : t.currentProcess = (a.multilevelChoice policy).target := ht.currentProcess
  have hcontents : ∀ l, t.contents l =
      (a.examine (a.multilevelChoice policy).visited (a.multilevelChoice policy).next).list l :=
    fun l => (ht.holds l).walk_eq (Nat.le_trans (List.length_filter_le _ _) (hl.length_le l))
  have hcounter : ∀ x, (t.pcb x).counter = (a.multilevelChoice policy).counter x := fun x => by
    have hproc := congrArg Proc.counter (ht.proc x)
    rw [Sched.field_dispatch _ _ _ Proc.counter (fun _ _ => rfl) fun _ _ => rfl] at hproc
    exact hproc
  have hvisited : (a.multilevelChoice policy).visited =
      (Sched.scan (fun p => (a.proc p).barred) (a.byLevel policy)).1 := rfl
  have hnext : (a.multilevelChoice policy).next =
      (Sched.scan (fun p => (a.proc p).barred) (a.byLevel policy)).2 := rfl
  cases hscan : (Sched.scan (fun p => (a.proc p).barred) (a.byLevel policy)).2 with
  | none =>
      refine .idle ?_ fun q hq x hx => ?_
      · rw [hcurrent, Sched.Choice.target, hnext, hscan]
        rfl
      · rw [h.contents_lists hl] at hx
        exact h.barred_iff.mp (Sched.scan_idle hscan (List.mem_flatMap.mpr ⟨q, hq, hx⟩))
  | some p =>
      have hp : t.currentProcess = p := by
        rw [hcurrent, Sched.Choice.target, hnext, hscan]
        rfl
      obtain ⟨us, q, vs, hlevels, hlower, hfound, hseen⟩ := Sched.scan_flatMap hscan
      obtain ⟨pre, post, hlist, hfront, hpre, hpbarred⟩ := Sched.scan_split hfound
      have hq : q ∈ policy.levels := by
        rw [hlevels]
        exact List.mem_append_right us List.mem_cons_self
      have hsorted := policy.pairwise_levels
      rw [hlevels] at hsorted
      obtain ⟨_, hbehind, hbefore⟩ := List.pairwise_append.mp hsorted
      have hmem : p ∈ a.list (.mlQueues q) := hlist ▸ List.mem_append_right pre List.mem_cons_self
      refine .first q pre post hq ?_ ?_ (fun x hx => ?_) (fun q' hq' hlt x hx => ?_)
        (fun q' hlt => ?_) ?_
      · rw [h.contents_lists hl, hp]
        exact hlist
      · rw [hp, ← h.barred_iff, hpbarred]
        exact Bool.false_ne_true
      · exact h.barred_iff.mp (hpre x hx)
      · rw [h.contents_lists hl] at hx
        rw [hlevels] at hq'
        rcases List.mem_append.mp hq' with hus | hvs
        · exact h.barred_iff.mp (hlower q' hus x hx)
        · rcases List.mem_cons.mp hvs with rfl | hvs
          · exact absurd hlt (Int.lt_irrefl _)
          · exact absurd ((List.pairwise_cons.mp hbehind).1 q' hvs) (Int.not_lt.mpr hlt.le)
      · have hq' : q' ∉ us ++ [q] := fun hm => by
          rcases List.mem_append.mp hm with hus | hone
          · exact absurd (hbefore q' hus q List.mem_cons_self) (Int.not_lt.mpr hlt.le)
          · exact absurd hlt (List.mem_singleton.mp hone ▸ Int.lt_irrefl _)
        have hsame : t.contents (.mlQueues q') = a.list (.mlQueues q') := by
          rw [hcontents]
          refine h.later_level us q (fun x hx => ?_) (fun x hx => ?_) hq'
          · rw [hvisited.trans hseen] at hx
            rcases List.mem_append.mp hx with hx | hx
            · obtain ⟨q'', hq'', hx⟩ := List.mem_flatMap.mp hx
              exact ⟨q'', List.mem_append_left _ hq'', hx⟩
            · exact ⟨q, List.mem_append_right us (List.mem_singleton.mpr rfl),
                Sched.scan_subset hx⟩
          · rw [hnext] at hx
            exact (Sched.scan_next hx).1
        have hlist' : (a.dispatch (a.multilevelChoice policy)).list (.mlQueues q') =
            a.list (.mlQueues q') := (hcontents (.mlQueues q')).symm.trans hsame
        have htq := ht.holds (.mlQueues q')
        rw [hlist'] at htq
        refine ⟨htq.ends_eq (h.holds (.mlQueues q')), ?_⟩
        rw [hsame, h.contents_lists hl]
      · have hquantum := h.levelQuantum_eq hq hmem
        rw [hcounter, hp]
        change (if (Sched.scan _ _).2 = some p then _ else _) = _
        rw [if_pos hscan, hquantum]
        rfl

end Refines

/-- The decisions of MLQ and MLFQ, and the indices they use, in every run. -/
theorem strictPriority_of_reachable {alg : Algorithm} {policy : MultilevelPolicy} {s : KState}
    {op : Op} (hpolicy : alg.mlPolicy = some policy) (h : BootReachable alg s)
    (hop : op.Enabled s.toGlobals) :
    InLevels policy s ∧ InLevels policy (before alg s op) ∧
      ∀ t, decides alg s op = true → step alg s op = some t →
        InLevels policy (parked (before alg s op)) ∧
          StrictPriority policy (parked (before alg s op)) t := by
  obtain ⟨a, ha, hsettled⟩ := h.settled
  have hop' : op.Enabled a.toGlobals := by rw [← ha.refines.globals]; exact hop
  have href := ha.refines.before alg ha.law ha.current op
  have hlaw : (a.before alg op).Law := (ha.law.calm_before alg ha.current hop').law
  have hout : (a.before alg op).Outgoing := ha.law.outgoing_before ha.current hop'
  have hbefore : (a.before alg op).Settled alg := hsettled.before ha.law ha.current op
  refine ⟨hsettled.inLevels ha.refines hpolicy, hbefore.inLevels href hpolicy, fun t hd ht => ?_⟩
  have hcontest := href.contest alg hlaw.lists
  have hparked : Demoos.requeueCurrent alg.enqueue (Demoos.preemptDisable (before alg s op)) =
      parked (before alg s op) := by
    cases alg with
    | mlq | mlfq => rfl
    | _ => exact absurd hpolicy (by simp [Algorithm.mlPolicy])
  have hselect : ((a.before alg op).contest alg).select alg =
      some (((a.before alg op).contest alg).multilevelChoice policy) := by
    cases alg with
    | mlq | mlfq => rw [← Option.some.inj hpolicy]; rfl
    | _ => exact absurd hpolicy (by simp [Algorithm.mlPolicy])
  rw [step_eq, if_pos hd] at ht
  have hpick := href.dispatches alg hlaw.lists hout.registered
  rw [ht, hselect] at hpick
  rw [hparked] at hcontest
  cases hpick with
  | some hdispatch =>
      refine ⟨hbefore.contest.inLevels hcontest hpolicy, ?_⟩
      exact hcontest.strictPriority (hlaw.lists.contest hout.registered alg) hdispatch

/-- Two children of MLFQ, the older one of a lower level, when their parent yields. -/
theorem strictPriority_mlfq : ∃ s t, runOps .mlfq [.copyProcess true, .timerTick,
      .copyProcess true, .copyProcess true, .setParam 2 schedParamQueuePriority 3]
        (boot fun _ => 0) = some s ∧
    step .mlfq s .yield = some t ∧
    InLevels mlPolicyMlfq (parked (before .mlfq s .yield)) ∧
    StrictPriority mlPolicyMlfq (parked (before .mlfq s .yield)) t := by
  obtain ⟨s, hs, _, hi, hstep⟩ := exists_afterBoot .mlfq [.copyProcess true, .timerTick,
    .copyProcess true, .copyProcess true, .setParam 2 schedParamQueuePriority 3]
    (fun s => s.currentProcess ≠ initProcess ∧ (step .mlfq s .yield).isSome = true)
    (by decide +kernel)
  have hboot : BootReachable .mlfq s := ⟨_, ⟨_, rfl⟩, run_runOps hs⟩
  obtain ⟨t, ht⟩ := Option.isSome_iff_exists.mp hstep
  have hop : Op.yield.Enabled s.toGlobals := hi
  obtain ⟨_, _, hall⟩ := strictPriority_of_reachable rfl hboot hop
  exact ⟨s, t, hs, ht, hall t rfl ht⟩

end Demoos
