import Demoos.Scheduler.Primitives

/-!
# Migration between the levels of MLFQ

A process has a level in `queue_level` and, while it is queued, the level of the
queue it is linked in.  A demotion writes the first only, of a process that is
running and hence not queued, and the next insertion follows it.  The boost
moves the queued processes and resets the array.  `Levelled` says that the two
agree between operations, and `Migration` what one operation does to a level.
-/

namespace Demoos

open Function (update)

namespace Sched

variable {op : Op} {alg : Algorithm} {a b : Sched} {p : Pid}

/-! ## The two levels of a process -/

structure Levelled (a : Sched) : Prop where
  bound : a.nProcesses ≤ maxProcesses
  range : ∀ i, 0 ≤ a.queueLevel i ∧ a.queueLevel i < mlPolicyMlfq.nLevels
  linked : ∀ l p, p ∈ a.list l → p < a.nProcesses ∧ l = .mlQueues (a.queueLevel p)

theorem levels_mlfq {q : Int} :
    q ∈ mlPolicyMlfq.levels ↔ 0 ≤ q ∧ q < mlPolicyMlfq.nLevels := by
  have hlevels : mlPolicyMlfq.levels = [0, 1, 2, 3, 4] := rfl
  have hn : (mlPolicyMlfq.nLevels : Int) = 5 := rfl
  simp only [hlevels, hn, List.mem_cons, List.not_mem_nil, or_false]
  omega

theorem startLevel_mlfq (b : Proc) :
    0 ≤ startLevel .mlfq b ∧ startLevel .mlfq b < mlPolicyMlfq.nLevels := by
  have hn : (mlPolicyMlfq.nLevels : Int) = 5 := rfl
  have hmax : mlMaxLevels = 5 := rfl
  have hpolicy : Algorithm.mlfq.mlPolicy = some mlPolicyMlfq := rfl
  simp only [startLevel, clampLevel, hpolicy, hn, hmax]
  split <;> omega

theorem Levelled.boost (h : a.Levelled) : (a.boost mlPolicyMlfq).Levelled where
  bound := h.bound
  range i := by
    change 0 ≤ (if i < maxProcesses then 0 else a.queueLevel i) ∧
      (if i < maxProcesses then 0 else a.queueLevel i) < _
    split
    next => exact ⟨le_rfl, by decide⟩
    next => exact h.range i
  linked l p hp := by
    obtain ⟨l', hl', rfl⟩ := (mem_boost (by decide)).mp hp
    obtain ⟨hlt, rfl⟩ := h.linked l' p hl'
    refine ⟨hlt, ?_⟩
    rw [boosted, if_pos (levels_mlfq.mpr (h.range p))]
    exact congrArg ReadyList.mlQueues (if_pos (Nat.lt_of_lt_of_le hlt h.bound)).symm

theorem Levelled.prim (hop : op.KeepsLevel) (h : a.Levelled) (hb : Prim .mlfq op a b) :
    b.Levelled := by
  cases hb with
  | write p f hf => exact ⟨h.bound, h.range, h.linked⟩
  | enqueue p hp hlt =>
      refine ⟨?_, fun i => ?_, fun l q hq => ?_⟩
      · rw [toGlobals_enqueue]; exact h.bound
      · rw [toGlobals_enqueue]; exact h.range i
      · rw [toGlobals_enqueue]
        rcases (mem_list_enqueue _ _ _ _ _).mp hq with hq | ⟨rfl, _, hl⟩
        · exact h.linked l q hq
        · exact ⟨hlt, hl⟩
  | enroll hu hcur hn =>
      refine ⟨hn, fun i => ?_, fun l q hq => ?_⟩
      · change 0 ≤ update a.queueLevel a.nProcesses _ i ∧ update a.queueLevel a.nProcesses _ i < _
        rw [Function.update_apply]
        split
        next => exact startLevel_mlfq _
        next => exact h.range i
      · obtain ⟨hlt, hl⟩ := h.linked l q hq
        refine ⟨Nat.lt_succ_of_lt hlt, ?_⟩
        change l = .mlQueues (update a.queueLevel a.nProcesses _ q)
        rw [Function.update_of_ne (Nat.ne_of_lt hlt)]
        exact hl
  | count he => exact ⟨h.bound, h.range, h.linked⟩
  | boost policy he hp =>
      obtain rfl := Option.some.inj hp
      exact h.boost
  | demote policy he hp hd hu hl =>
      obtain rfl := Option.some.inj hp
      refine ⟨h.bound, fun i => ?_, fun l q hq => ?_⟩
      · change 0 ≤ update a.queueLevel a.currentProcess _ i ∧
          update a.queueLevel a.currentProcess _ i < _
        rw [Function.update_apply]
        split
        next =>
          have := (h.range a.currentProcess).1
          omega
        next => exact h.range i
      · obtain ⟨hlt, hlq⟩ := h.linked l q hq
        have hne : q ≠ a.currentProcess := fun e => hu l (e ▸ hq)
        refine ⟨hlt, ?_⟩
        change l = .mlQueues (update a.queueLevel a.currentProcess _ q)
        rw [Function.update_of_ne hne]
        exact hlq
  | relevel p v level he => subst he; exact absurd rfl hop

theorem Levelled.dispatch (h : a.Levelled) (c : Choice) : (a.dispatch c).Levelled :=
  ⟨h.bound, h.range, fun l p hp => h.linked l p (mem_list_commit.mp hp).1⟩

theorem Levelled.step (hlaw : a.Law) (hc : a.Current) (h : a.Levelled)
    (hop : op.Enabled a.toGlobals) (hkeep : op.KeepsLevel) (hb : a.step .mlfq op = some b) :
    b.Levelled :=
  hlaw.prim_invariant hc hop (fun _ _ hl => hl.prim hkeep) (fun _ c _ _ hl => hl.dispatch c) hb h

/-! ## What moves a process -/

/-- A decision leaves the levels to the part in front of it. -/
theorem Law.levels_step (h : a.Law) (hc : a.Current) (hop : op.Enabled a.toGlobals)
    (hb : a.step alg op = some b) :
    b.queueLevel = (a.before alg op).queueLevel ∧
      b.mlTicksSinceBoost = (a.before alg op).mlTicksSinceBoost := by
  rcases h.step_cases hc hop hb with ⟨_, c, hd⟩ | ⟨_, rfl⟩
  · rw [hd.result]
    change ((a.before alg op).contest alg).queueLevel = _ ∧
      ((a.before alg op).contest alg).mlTicksSinceBoost = _
    rw [toGlobals_contest]
    exact ⟨rfl, rfl⟩
  · exact ⟨rfl, rfl⟩

/-- The registered processes keep their levels, and the boost its counter. -/
structure SameLevels (a b : Sched) : Prop where
  nProcesses : a.nProcesses ≤ b.nProcesses
  level : ∀ p, p < a.nProcesses → b.queueLevel p = a.queueLevel p
  ticks : b.mlTicksSinceBoost = a.mlTicksSinceBoost

theorem SameLevels.prim {c : Sched} (hop : op.KeepsLevel) (htick : op ≠ .timerTick)
    (h : a.SameLevels b) (hc : Prim alg op b c) : a.SameLevels c := by
  cases hc with
  | write p f hf => exact ⟨h.nProcesses, h.level, h.ticks⟩
  | enqueue p hp hlt =>
      have hglobals := toGlobals_enqueue alg b p
      refine ⟨?_, fun q hq => ?_, ?_⟩
      · rw [hglobals]; exact h.nProcesses
      · rw [hglobals]; exact h.level q hq
      · rw [hglobals]; exact h.ticks
  | enroll hu hcur hn =>
      refine ⟨Nat.le_succ_of_le h.nProcesses, fun q hq => ?_, h.ticks⟩
      refine (Function.update_of_ne ?_ _ _).trans (h.level q hq)
      exact Nat.ne_of_lt (Nat.lt_of_lt_of_le hq h.nProcesses)
  | count he => exact absurd he htick
  | boost policy he hp => exact absurd he htick
  | demote policy he hp hd hu hl => exact absurd he htick
  | relevel p v level he => subst he; exact absurd rfl hop

theorem Law.sameLevels_step (h : a.Law) (hc : a.Current) (hop : op.Enabled a.toGlobals)
    (hkeep : op.KeepsLevel) (htick : op ≠ .timerTick) (hb : a.step alg op = some b) :
    (∀ p, p < a.nProcesses → b.queueLevel p = a.queueLevel p) ∧
      b.mlTicksSinceBoost = a.mlTicksSinceBoost := by
  have hsame : a.SameLevels (a.before alg op) :=
    Prims.invariant (fun _ _ hs => hs.prim hkeep htick) (h.prims_before hc hop)
      ⟨le_rfl, fun _ _ => rfl, rfl⟩
  obtain ⟨hlevels, hticks⟩ := h.levels_step hc hop hb
  rw [hlevels, hticks]
  exact ⟨hsame.level, hsame.ticks⟩

/-! ## The tick -/

/-- A tick of MLFQ between its boost and its demotion. -/
def afterBoost (a : Sched) : Sched :=
  (a.modify a.currentProcess Proc.tick).boostIfDue mlPolicyMlfq

/-- The tick demotes `p`. -/
def Expires (a : Sched) (p : Pid) : Prop :=
  p = a.currentProcess ∧ p ≠ initProcess ∧ a.current.counter - 1 ≤ 0 ∧
    a.current.preemptDisabled = 0 ∧ a.afterBoost.queueLevel p < mlPolicyMlfq.nLevels - 1

theorem afterBoost_due (h : mlfqBoostPeriod ≤ a.mlTicksSinceBoost + 1) :
    a.afterBoost.list = (a.boost mlPolicyMlfq).list ∧
      a.afterBoost.queueLevel = (a.boost mlPolicyMlfq).queueLevel ∧
      a.afterBoost.mlTicksSinceBoost = 0 := by
  have heq : a.afterBoost = Sched.boost mlPolicyMlfq { a.modify a.currentProcess Proc.tick with
      mlTicksSinceBoost := a.mlTicksSinceBoost + 1 } := by
    rw [afterBoost, boostIfDue, if_pos (by decide)]
    exact if_pos h
  rw [heq]
  exact ⟨rfl, rfl, rfl⟩

theorem afterBoost_early (h : a.mlTicksSinceBoost + 1 < mlfqBoostPeriod) :
    a.afterBoost.list = a.list ∧ a.afterBoost.queueLevel = a.queueLevel ∧
      a.afterBoost.mlTicksSinceBoost = a.mlTicksSinceBoost + 1 := by
  have heq : a.afterBoost = { a.modify a.currentProcess Proc.tick with
      mlTicksSinceBoost := a.mlTicksSinceBoost + 1 } := by
    rw [afterBoost, boostIfDue, if_pos (by decide)]
    exact if_neg (Int.not_le.mpr h)
  rw [heq]
  exact ⟨rfl, rfl, rfl⟩

theorem afterBoost_frame (a : Sched) :
    a.afterBoost.proc = (a.modify a.currentProcess Proc.tick).proc ∧
      a.afterBoost.currentProcess = a.currentProcess := by
  unfold afterBoost boostIfDue
  split
  next =>
    dsimp only
    split <;> exact ⟨rfl, rfl⟩
  next => exact ⟨rfl, rfl⟩

theorem current_afterBoost (a : Sched) : a.afterBoost.current = a.current.tick := by
  obtain ⟨hproc, hcurrent⟩ := a.afterBoost_frame
  rw [current, hcurrent, hproc, proc_modify, if_pos rfl, current]

theorem queueLevel_accountTick (a : Sched) (p : Pid) [Decidable (a.Expires p)] :
    (a.accountTick .mlfq).queueLevel p =
      if a.Expires p then a.afterBoost.queueLevel p + 1 else a.afterBoost.queueLevel p := by
  have heq : a.accountTick .mlfq = a.afterBoost.demoteIfExpired mlPolicyMlfq := rfl
  rw [heq, demoteIfExpired, current_afterBoost, a.afterBoost_frame.2]
  split
  next hc =>
    obtain ⟨_, hi, hcounter, hguard, hlevel⟩ := hc
    refine (Function.update_apply _ _ _ p).trans ?_
    by_cases hp : p = a.currentProcess
    · subst hp
      rw [if_pos rfl, if_pos ⟨rfl, hi, hcounter, hguard, hlevel⟩]
    · rw [if_neg hp, if_neg fun he => hp he.1]
  next hc =>
    refine (if_neg fun he => hc ?_).symm
    obtain ⟨rfl, hi, hcounter, hguard, hlevel⟩ := he
    exact ⟨rfl, hi, hcounter, hguard, hlevel⟩

theorem ticks_accountTick (a : Sched) :
    (a.accountTick .mlfq).mlTicksSinceBoost = a.afterBoost.mlTicksSinceBoost := by
  have heq : a.accountTick .mlfq = a.afterBoost.demoteIfExpired mlPolicyMlfq := rfl
  rw [heq, demoteIfExpired]
  split <;> rfl

theorem list_accountTick (a : Sched) : (a.accountTick .mlfq).list = a.afterBoost.list := by
  have heq : a.accountTick .mlfq = a.afterBoost.demoteIfExpired mlPolicyMlfq := rfl
  rw [heq, demoteIfExpired]
  split <;> rfl

theorem before_timerTick (a : Sched) (alg : Algorithm) :
    (a.before alg .timerTick).queueLevel = (a.accountTick alg).queueLevel ∧
      (a.before alg .timerTick).mlTicksSinceBoost = (a.accountTick alg).mlTicksSinceBoost := by
  simp only [before]
  split <;> exact ⟨rfl, rfl⟩

end Sched

/-! ## The code -/

/-- The level of a process when the demotion of a tick comes, with `n` ticks behind: the tick
that completes a period has reset it. -/
def baseLevel (n : Nat) (s : KState) (p : Pid) : Int :=
  if (n + 1) % mlfqBoostPeriod = 0 then 0 else s.queueLevel p

/-- The process `p` is at the end of its slice when the tick comes, outside a
critical section, and has a level left to go down to. -/
def Expires (n : Nat) (s : KState) (p : Pid) : Prop :=
  p = s.currentProcess ∧ p ≠ initProcess ∧ s.current.counter - 1 ≤ 0 ∧
    s.current.preemptDisabled = 0 ∧ baseLevel n s p < mlPolicyMlfq.nLevels - 1

instance (n : Nat) (s : KState) (p : Pid) : Decidable (Expires n s p) := by
  unfold Expires
  infer_instance

/-- The level of a process is within the levels, and it is the queue the process is
linked in. -/
structure KState.Levelled (s : KState) : Prop where
  range : ∀ i < maxProcesses, 0 ≤ s.queueLevel i ∧ s.queueLevel i < mlPolicyMlfq.nLevels
  linked : ∀ l, ∀ p ∈ s.contents l, l = .mlQueues (s.queueLevel p)

/-- The queues of `u` are those of `s` after a boost. -/
structure Gathered (s u : KState) : Prop where
  first : u.contents (.mlQueues 0) = s.contents (.mlQueues 0) ++ (s.contents (.mlQueues 1) ++
    (s.contents (.mlQueues 2) ++ (s.contents (.mlQueues 3) ++ s.contents (.mlQueues 4))))
  others : ∀ q : Int, 0 < q → q < mlPolicyMlfq.nLevels → u.contents (.mlQueues q) = []

/-- What the operation `op` from `s` to `t` does to the levels, after `n` ticks.  A tick ends in
the state of its bookkeeping, or a decision starts from there. -/
structure Migration (n : Nat) (s : KState) (op : Op) (t : KState) : Prop where
  stays : op ≠ .timerTick → ∀ p, s.processes p = some p → t.queueLevel p = s.queueLevel p
  levels : op = .timerTick → ∀ p < maxProcesses,
    t.queueLevel p = baseLevel n s p + if Expires n s p then 1 else 0
  boosts : op = .timerTick → (n + 1) % mlfqBoostPeriod = 0 → Gathered s (accountTick .mlfq s)
  rests : op = .timerTick → (n + 1) % mlfqBoostPeriod ≠ 0 →
    (accountTick .mlfq s).contents = s.contents
  decides : op = .timerTick → ∀ p, Expires n s p → decides .mlfq s op = true
  ends : op = .timerTick → if Demoos.decides .mlfq s op then
      pickNext .mlfq (setCounter (accountTick .mlfq s) (accountTick .mlfq s).currentProcess 0) =
        some t
    else t = accountTick .mlfq s

/-- The counter of the boost is full at the tick that completes the period. -/
theorem boostDue_iff {n : Nat} {c : Int} (hc : c = n % mlfqBoostPeriod) :
    mlfqBoostPeriod ≤ c + 1 ↔ (n + 1) % mlfqBoostPeriod = 0 := by
  unfold mlfqBoostPeriod at hc ⊢
  omega

/-- And otherwise it counts on. -/
theorem boostCount {n : Nat} {c : Int} (hc : c = n % mlfqBoostPeriod) :
    ((n + 1 : Nat) : Int) % mlfqBoostPeriod = if mlfqBoostPeriod ≤ c + 1 then 0 else c + 1 := by
  unfold mlfqBoostPeriod at hc ⊢
  split <;> omega

/-- A tick of MLFQ decides from the state of its bookkeeping, or ends in it. -/
theorem step_timerTick {s t : KState} (ht : step .mlfq s .timerTick = some t) :
    if decides .mlfq s .timerTick then
      pickNext .mlfq (setCounter (accountTick .mlfq s) (accountTick .mlfq s).currentProcess 0) =
        some t
    else t = accountTick .mlfq s := by
  have hdecides : decides .mlfq s .timerTick = sliceOver (accountTick .mlfq s) := Bool.and_true _
  rw [step_eq] at ht
  simp only [hdecides, before] at ht ⊢
  split at ht
  next h => rwa [if_pos h]
  next h =>
    rw [if_neg h]
    exact (Option.some.inj ht).symm

namespace Represents

variable {s t : KState} {a : Sched} {op : Op} {n : Nat}

/-- The level that the boost leaves is the one that the demotion starts from. -/
theorem baseLevel_eq (h : Represents s a) (hticks : a.mlTicksSinceBoost = n % mlfqBoostPeriod)
    {p : Pid} (hp : p < maxProcesses) : baseLevel n s p = a.afterBoost.queueLevel p := by
  rw [baseLevel]
  split
  next hdue =>
    obtain ⟨_, hlevel, _⟩ := Sched.afterBoost_due ((boostDue_iff hticks).mpr hdue)
    rw [hlevel]
    exact (if_pos hp).symm
  next hdue =>
    have hearly : a.mlTicksSinceBoost + 1 < mlfqBoostPeriod :=
      Int.not_le.mp fun hfull => hdue ((boostDue_iff hticks).mp hfull)
    obtain ⟨_, hlevel, _⟩ := Sched.afterBoost_early hearly
    rw [hlevel, h.refines.queueLevel]

theorem expires_iff (h : Represents s a) (hticks : a.mlTicksSinceBoost = n % mlfqBoostPeriod)
    {p : Pid} (hp : p < maxProcesses) : Expires n s p ↔ a.Expires p := by
  have hcurrent := h.refines.current
  have hcounter : s.current.counter = a.current.counter := congrArg Proc.counter hcurrent
  have hguard : s.current.preemptDisabled = a.current.preemptDisabled :=
    congrArg Proc.preemptDisabled hcurrent
  rw [Expires, Sched.Expires, h.refines.currentProcess, hcounter, hguard,
    h.baseLevel_eq hticks hp]

theorem levelled (h : Represents s a) (hl : a.Levelled) : s.Levelled where
  range i _ := by rw [h.refines.queueLevel]; exact hl.range i
  linked l p hp := by
    rw [h.contents_eq] at hp
    rw [h.refines.queueLevel]
    exact (hl.linked l p hp).2

theorem contents_accountTick (h : Represents s a) (l : ReadyList) :
    (accountTick .mlfq s).contents l = a.afterBoost.list l := by
  have href : Refines (accountTick .mlfq s) (a.accountTick .mlfq) := h.refines.accountTick .mlfq h.law
  rw [href.contents_eq (h.law.calm_accountTick .mlfq).law, Sched.list_accountTick]

/-- The boost comes with the tick that completes its period. -/
theorem gathered (h : Represents s a) (hdue : mlfqBoostPeriod ≤ a.mlTicksSinceBoost + 1) :
    Gathered s (accountTick .mlfq s) := by
  obtain ⟨hlist, _, _⟩ := Sched.afterBoost_due hdue
  refine ⟨?_, fun q h0 hq => ?_⟩
  · have hlevels : mlPolicyMlfq.levels = [0, 1, 2, 3, 4] := rfl
    rw [h.contents_accountTick, hlist]
    simp only [Sched.boost, if_true, Sched.byLevel, hlevels, List.flatMap_cons, List.flatMap_nil,
      List.append_nil, h.contents_eq]
  · rw [h.contents_accountTick, hlist]
    simp only [Sched.boost, if_neg h0.ne', if_pos (Sched.levels_mlfq.mpr ⟨h0.le, hq⟩)]

theorem migration (h : Represents s a) (hticks : a.mlTicksSinceBoost = n % mlfqBoostPeriod)
    (hop : op.Enabled s.toGlobals) (hkeep : op.KeepsLevel) (ht : Demoos.step .mlfq s op = some t) :
    Migration n s op t := by
  obtain ⟨b, hb, hrep⟩ := h.step hop ht
  have hop' : op.Enabled a.toGlobals := by rw [← h.refines.globals]; exact hop
  refine ⟨fun hne p hp => ?_, fun he p hp => ?_, fun he hdue => ?_, fun he hdue => ?_,
    fun he p hp => ?_, fun he => ?_⟩
  · rw [hrep.refines.queueLevel, h.refines.queueLevel]
    exact (h.law.sameLevels_step h.current hop' hkeep hne hb).1 p (h.registered_iff.mp hp)
  · subst he
    have hlevel := (h.law.levels_step h.current hop' hb).1
    rw [hrep.refines.queueLevel, hlevel, (a.before_timerTick .mlfq).1, h.baseLevel_eq hticks hp]
    classical
    rw [a.queueLevel_accountTick p]
    simp only [h.expires_iff hticks hp]
    split
    next => rfl
    next => exact (Int.add_zero _).symm
  · exact h.gathered ((boostDue_iff hticks).mpr hdue)
  · have hearly : a.mlTicksSinceBoost + 1 < mlfqBoostPeriod :=
      Int.not_le.mp fun hfull => hdue ((boostDue_iff hticks).mp hfull)
    obtain ⟨hlist, _, _⟩ := Sched.afterBoost_early hearly
    exact funext fun l => by rw [h.contents_accountTick, h.contents_eq, hlist]
  · subst he
    have hlt : p < maxProcesses := by
      rw [hp.1, h.refines.currentProcess]
      exact Nat.lt_of_lt_of_le h.current.registered h.law.bound
    obtain ⟨_, _, hcounter, hguard, _⟩ := (h.expires_iff hticks hlt).mp hp
    have hover : (a.accountTick .mlfq).sliceOver = true := by
      rw [Sched.sliceOver, Sched.current_accountTick, Proc.tick, hguard]
      simpa using hcounter
    rw [h.refines.decides .mlfq h.law]
    exact Bool.and_eq_true_iff.mpr ⟨hover, rfl⟩
  · subst he
    exact step_timerTick ht

end Represents

/-! ## Runs -/

/-- A run of MLFQ without `sched_set_param(SCHED_PARAM_QUEUE_PRIORITY)` is at `s`
after the operations `ops`. -/
def AtLevels (ops : List Op) (s : KState) : Prop :=
  ∃ a, Represents s a ∧ a.Levelled ∧
    a.mlTicksSinceBoost = (ops.count .timerTick : Nat) % mlfqBoostPeriod

theorem atLevels_boot (timer : Nat → BitVec 32) : AtLevels [] (boot timer) := by
  have hn : (0 : Int) < mlPolicyMlfq.nLevels := by decide
  refine ⟨_, represents_boot timer, ⟨Nat.le_of_ble_eq_true rfl, fun _ => ⟨le_rfl, hn⟩, ?_⟩, rfl⟩
  exact fun _ _ hp => absurd hp List.not_mem_nil

theorem AtLevels.step {ops : List Op} {op : Op} {s t : KState} (h : AtLevels ops s)
    (hop : op.Enabled s.toGlobals) (hkeep : op.KeepsLevel) (ht : step .mlfq s op = some t) :
    AtLevels (ops ++ [op]) t := by
  obtain ⟨a, ha, hl, hticks⟩ := h
  obtain ⟨b, hb, hrep⟩ := ha.step hop ht
  have hop' : op.Enabled a.toGlobals := by rw [← ha.refines.globals]; exact hop
  refine ⟨b, hrep, hl.step ha.law ha.current hop' hkeep hb, ?_⟩
  rw [List.count_append, List.count_singleton]
  by_cases he : op = .timerTick
  · subst he
    rw [if_pos (beq_self_eq_true _), (ha.law.levels_step ha.current hop' hb).2,
      (a.before_timerTick .mlfq).2, a.ticks_accountTick, boostCount hticks]
    split
    next hdue => exact (Sched.afterBoost_due hdue).2.2
    next hdue => exact (Sched.afterBoost_early (Int.not_le.mp hdue)).2.2
  · rw [if_neg (by simpa using he), (ha.law.sameLevels_step ha.current hop' hkeep he hb).2]
    exact hticks

/-- The migration rules of MLFQ, for the state that any operations lead to from boot
and the operation that follows. -/
theorem migration_of_keepsLevel {ops : List Op} (hops : ∀ op ∈ ops, op.KeepsLevel)
    {timer : Nat → BitVec 32} {s : KState} (hs : runOps .mlfq ops (boot timer) = some s) :
    s.Levelled ∧ ∀ (op : Op) (t : KState), op.Enabled s.toGlobals → op.KeepsLevel →
      step .mlfq s op = some t → Migration (ops.count .timerTick) s op t := by
  have hat : (∀ op ∈ ops, op.KeepsLevel) → AtLevels ops s := by
    refine Transition.exec_invariant (P := fun ops s => (∀ op ∈ ops, op.KeepsLevel) →
      AtLevels ops s) (fun ops s op t h ht hall => ?_) (fun _ => atLevels_boot timer) hs
    obtain ⟨hop, ht⟩ := Option.ite_none_right_eq_some.mp ht
    exact (h fun o ho => hall o (List.mem_append_left _ ho)).step hop
      (hall op (List.mem_append_right _ List.mem_cons_self)) ht
  obtain ⟨a, ha, hl, hticks⟩ := hat hops
  exact ⟨ha.levelled hl, fun op t hop hkeep ht => ha.migration hticks hop hkeep ht⟩

/-- The operations in front of the tick that completes the first period. -/
def firstPeriod : List Op :=
  List.replicate 289 .timerTick ++ [.copyProcess true, .timerTick, .copyProcess true] ++
    List.replicate 9 .timerTick

/-- The first period ends with the first slice of process 2, while process 1 waits at the level
below: the boost takes 1 up, and 2 goes down behind it. -/
theorem migration_firstPeriod : ∃ s, runOps .mlfq firstPeriod (boot fun _ => 0) = some s ∧
    s.Levelled ∧ ∃ t, step .mlfq s .timerTick = some t ∧ Migration 299 s .timerTick t ∧
      Expires 299 s 2 ∧ s.queueLevel 1 = 1 ∧ t.queueLevel 1 = 0 ∧ t.queueLevel 2 = 1 := by
  obtain ⟨s, hs, hrun⟩ := (Option.any_eq_true _ _).mp (show (runOps .mlfq firstPeriod
      (boot fun _ => 0)).any (fun s => decide (Expires 299 s 2 ∧ s.queueLevel 1 = 1 ∧
        (step .mlfq s .timerTick).isSome = true)) = true by decide +kernel)
  obtain ⟨hexpires, hone, hsome⟩ := of_decide_eq_true hrun
  obtain ⟨t, ht⟩ := Option.isSome_iff_exists.mp hsome
  have hkeep : ∀ op ∈ firstPeriod, op.KeepsLevel := by
    intro op hop
    simp only [firstPeriod, List.mem_append, List.mem_replicate, List.mem_cons,
      List.not_mem_nil, or_false] at hop
    rcases hop with (⟨_, rfl⟩ | rfl | rfl | rfl) | ⟨_, rfl⟩ <;> trivial
  have hcount : firstPeriod.count .timerTick = 299 := by decide +kernel
  obtain ⟨hlevelled, hnext⟩ := migration_of_keepsLevel hkeep hs
  rw [hcount] at hnext
  have hmig := hnext .timerTick t trivial trivial ht
  have hbase : ∀ p, baseLevel 299 s p = 0 := fun p => if_pos (by decide)
  have hnot : ¬ Expires 299 s 1 := fun h => absurd (h.1.trans hexpires.1.symm) (by decide)
  refine ⟨s, hs, hlevelled, t, ht, hmig, hexpires, hone, ?_, ?_⟩
  · rw [hmig.levels rfl 1 (by decide), hbase, if_neg hnot]
    rfl
  · rw [hmig.levels rfl 2 (by decide), hbase, if_pos hexpires]
    rfl

end Demoos
