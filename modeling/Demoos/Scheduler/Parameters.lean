import Demoos.Scheduler.Primitives

/-!
# The scheduling parameters

The static parameters of a process, its priority, its tickets and its queue priority, have
two writers: `copy_process`, which copies them from the parent, and `sched_set_param`.  The level
of a process in `queue_level` has two more, the demotion and the boost.  All of them stay
in the ranges that the algorithms rely on.
-/

namespace Demoos

open Function (update update_apply)

/-- How many levels there are for a process. -/
def Algorithm.nLevels (alg : Algorithm) : Int :=
  match alg.mlPolicy with
  | none => mlMaxLevels
  | some policy => policy.nLevels

/-! ## Legal parameters -/

namespace Proc

structure Legal (b : Proc) : Prop where
  priority : 1 ≤ b.priority
  tickets : 1 ≤ b.tickets
  queuePriority : 0 ≤ b.queuePriority ∧ b.queuePriority < mlMaxLevels

/-- The static parameters of a process. -/
def params (b : Proc) : Int × Int × Int := (b.priority, b.tickets, b.queuePriority)

theorem Legal.congr {b b' : Proc} (h : b.Legal) (he : b'.params = b.params) : b'.Legal := by
  obtain ⟨hpriority, hrest⟩ := Prod.mk.inj he
  obtain ⟨htickets, hqueue⟩ := Prod.mk.inj hrest
  exact ⟨hpriority ▸ h.priority, htickets ▸ h.tickets, hqueue ▸ h.queuePriority⟩

/-- A write that is not one of the queue priority keeps the parameters legal. -/
theorem Legal.write {op : Op} {p : Pid} {b b' : Proc} (h : b.Legal) (hop : op.KeepsLevel)
    (hw : b.Write op p b') : b'.Legal := by
  cases hw with
  | priority v he hv => exact ⟨hv, h.tickets, h.queuePriority⟩
  | tickets v he hv => exact ⟨h.priority, hv, h.queuePriority⟩
  | queuePriority v level he => subst he; exact absurd rfl hop
  | _ => exact h.congr rfl

end Proc

namespace Sched

variable {alg : Algorithm} {op : Op} {a b : Sched} {p : Pid}

structure Legal (alg : Algorithm) (a : Sched) : Prop where
  proc : ∀ p < a.nProcesses, (a.proc p).Legal
  level : ∀ p < a.nProcesses, 0 ≤ a.queueLevel p ∧ a.queueLevel p < alg.nLevels

theorem nLevels_of_policy (alg : Algorithm) {policy : MultilevelPolicy}
    (h : alg.mlPolicy = some policy) : alg.nLevels = policy.nLevels := by
  rw [Algorithm.nLevels, h]

theorem nLevels_eq (alg : Algorithm) : alg.nLevels = 5 := by
  cases alg <;> rfl

theorem clampLevel_legal (alg : Algorithm) {level : Int} (h0 : 0 ≤ level)
    (hn : level < mlMaxLevels) :
    0 ≤ clampLevel alg level ∧ clampLevel alg level ≤ level ∧ clampLevel alg level < alg.nLevels := by
  unfold clampLevel
  cases hp : alg.mlPolicy with
  | none =>
      rw [Algorithm.nLevels, hp]
      exact ⟨h0, le_rfl, hn⟩
  | some policy =>
      have hlevels : alg.nLevels = policy.nLevels := nLevels_of_policy alg hp
      have hfive := nLevels_eq alg
      dsimp only
      split <;> omega

theorem startLevel_legal (alg : Algorithm) (b : Proc) :
    0 ≤ startLevel alg b ∧ startLevel alg b < alg.nLevels := by
  have hmax : mlMaxLevels = 5 := rfl
  obtain ⟨h0, -, hn⟩ := clampLevel_legal alg
    (show 0 ≤ min (max b.queuePriority 0) (mlMaxLevels - 1) by omega) (by omega)
  exact ⟨h0, hn⟩

theorem Legal.prim (hop : op.KeepsLevel) (h : a.Legal alg) (hb : Prim alg op a b) :
    b.Legal alg := by
  have hproc : ∀ q, q < b.nProcesses → (b.proc q).Legal :=
    hb.forall_proc h.proc (fun _ _ _ hw hr => hr.write hop hw) fun hcur => (h.proc _ hcur).congr rfl
  cases hb with
  | write p f hf => exact ⟨hproc, h.level⟩
  | enqueue p hp hlt =>
      refine ⟨hproc, fun q hq => ?_⟩
      rw [toGlobals_enqueue] at hq ⊢
      exact h.level q hq
  | enroll hu hcur hn =>
      refine ⟨hproc, fun q hq => ?_⟩
      change 0 ≤ update a.queueLevel a.nProcesses _ q ∧ update a.queueLevel a.nProcesses _ q < _
      rw [Function.update_apply]
      split
      next => exact startLevel_legal alg _
      next hne => exact h.level q (Nat.lt_of_le_of_ne (Nat.lt_succ_iff.mp hq) hne)
  | count he => exact ⟨hproc, h.level⟩
  | boost policy he hp =>
      refine ⟨hproc, fun q hq => ?_⟩
      change 0 ≤ (if q < maxProcesses then 0 else a.queueLevel q) ∧
        (if q < maxProcesses then 0 else a.queueLevel q) < _
      split
      next => exact ⟨le_rfl, by rw [nLevels_eq]; decide⟩
      next => exact h.level q hq
  | demote policy he hp hd hu hl =>
      refine ⟨hproc, fun q hq => ?_⟩
      change 0 ≤ update a.queueLevel a.currentProcess _ q ∧
        update a.queueLevel a.currentProcess _ q < _
      rw [Function.update_apply]
      split
      next e =>
        subst e
        have hlevel := (h.level _ hq).1
        rw [nLevels_of_policy alg hp]
        omega
      next => exact h.level q hq
  | relevel p v level he => subst he; exact absurd rfl hop

/-- The dispatch leaves the fields that no decision uses. -/
theorem static_dispatch {β : Type} (g : Proc → β) (hs : ∀ b st, g { b with state := st } = g b)
    (hd : ∀ b n, g { b with preemptDisabled := n } = g b)
    (hk : ∀ b k, g { b with pendingSignals := k } = g b)
    (hc : ∀ b n, g { b with counter := n } = g b) (c : Choice) (p : Pid) :
    g ((a.dispatch c).proc p) = g (a.proc p) := by
  rw [field_dispatch a c p g hs hd, proc_commit]
  refine (hc _ _).trans ?_
  split
  next => exact Proc.field_handled _ g hs hk
  next => rfl

theorem Legal.dispatch (h : a.Legal alg) (c : Choice) : (a.dispatch c).Legal alg :=
  ⟨fun p hp => (h.proc p hp).congr (static_dispatch Proc.params (fun _ _ => rfl) (fun _ _ => rfl)
    (fun _ _ => rfl) (fun _ _ => rfl) c p), h.level⟩

/-- The new level of `sched_set_param` is a legal queue priority and a legal level. -/
theorem Legal.relevel (h : a.Legal alg) (p : Pid) {value : Int} (h0 : 0 ≤ value)
    (hn : value < mlMaxLevels) :
    Legal alg { a.modify p fun b => { b with queuePriority := clampLevel alg value } with
      queueLevel := update a.queueLevel p (clampLevel alg value) } := by
  obtain ⟨hnonneg, hle, hlt⟩ := clampLevel_legal alg h0 hn
  refine ⟨fun q hq => ?_, fun q hq => ?_⟩
  · rw [proc_modify]
    split
    next =>
      have hproc := h.proc q hq
      exact ⟨hproc.priority, hproc.tickets, hnonneg, hle.trans_lt hn⟩
    next => exact h.proc q hq
  · change 0 ≤ update a.queueLevel p _ q ∧ update a.queueLevel p _ q < _
    rw [Function.update_apply]
    split
    next => exact ⟨hnonneg, hlt⟩
    next => exact h.level q hq

theorem Legal.setQueuePriority (h : a.Legal alg) (p : Pid) (value : Int) :
    (a.schedSetParam alg p schedParamQueuePriority value).Legal alg := by
  unfold schedSetParam
  rw [if_neg (by decide : schedParamQueuePriority ≠ schedParamPriority),
    if_neg (by decide : schedParamQueuePriority ≠ schedParamTickets), if_pos rfl]
  split
  next => exact h
  next =>
    split
    next => exact h
    next hvalue =>
      rw [not_or, Int.not_lt, Int.not_le] at hvalue
      exact h.relevel p hvalue.1 hvalue.2

theorem Legal.step (hlaw : a.Law) (hc : a.Current) (h : a.Legal alg) (hop : op.Enabled a.toGlobals)
    (hb : a.step alg op = some b) : b.Legal alg := by
  by_cases hkeep : op.KeepsLevel
  · exact hlaw.prim_invariant hc hop (fun _ _ hl => hl.prim hkeep) (fun _ c _ _ hl => hl.dispatch c)
      hb h
  · cases op with
    | setParam p param value =>
        obtain rfl : param = schedParamQueuePriority := not_not.mp hkeep
        obtain rfl := Option.some.inj hb
        exact h.setQueuePriority p value
    | _ => exact absurd trivial hkeep

end Sched

/-! ## The calls -/

/-- The handler of `set_sched_param`. -/
def syscallSetSchedParam (alg : Algorithm) (s : KState) (pid param value : Int) : Int × KState :=
  match searchProcess s pid with
  | none => (-1, s)
  | some destination => schedSetParam alg s destination param value

/-- The selected field of `p` has the new value, and everything else is as it was. -/
inductive Sets (alg : Algorithm) (p : Pid) (s : KState) : Int → Int → KState → Prop
  | priority {value : Int} (h : 1 ≤ value) :
      Sets alg p s schedParamPriority value (s.modify p fun b => { b with priority := value })
  | tickets {value : Int} (h : 1 ≤ value) :
      Sets alg p s schedParamTickets value (s.modify p fun b => { b with tickets := value })
  | queuePriority {value level : Int} (h0 : 0 ≤ value) (hn : value < mlMaxLevels)
      (hlevel : level = min value (alg.nLevels - 1)) :
      Sets alg p s schedParamQueuePriority value
        { s.modify p fun b => { b with queuePriority := level } with
          queueLevel := update s.queueLevel p level }

/-- The ready queues, and whether a process can be preempted. -/
structure Kept (s t : KState) : Prop where
  links : t.links = s.links
  queue : t.queue = s.queue
  current : t.currentProcess = s.currentProcess
  preemptDisabled : ∀ p, (t.pcb p).preemptDisabled = (s.pcb p).preemptDisabled

/-- A call for one of the processes `target` fails and changes nothing, or it succeeds and sets
what it was asked to. -/
def SetsOrFails (alg : Algorithm) (s : KState) (target : Pid → Prop) (param value : Int)
    (answer : Int × KState) : Prop :=
  answer = (-1, s) ∨
    answer.1 = 0 ∧ ∃ p, target p ∧ p ≠ initProcess ∧ Sets alg p s param value answer.2 ∧
      Kept s answer.2

variable {alg : Algorithm} {s t : KState} {p : Pid}

theorem clampLevel_eq_min (alg : Algorithm) {value : Int} (hn : value < mlMaxLevels) :
    Sched.clampLevel alg value = min value (alg.nLevels - 1) := by
  unfold Sched.clampLevel
  cases hp : alg.mlPolicy with
  | none =>
      rw [Algorithm.nLevels, hp]
      dsimp only
      omega
  | some policy =>
      rw [Sched.nLevels_of_policy alg hp]
      dsimp only
      split <;> omega

theorem Sets.kept {param value : Int} (h : Sets alg p s param value t) : Kept s t := by
  have hkept : ∀ f : Proc → Proc, (∀ b, (f b).preemptDisabled = b.preemptDisabled) →
      Kept s (s.modify p f) := by
    intro f hf
    refine ⟨s.links_modify p f, rfl, rfl, fun q => ?_⟩
    have hproc :
        ((s.modify p f).pcb q).toProc.preemptDisabled = (s.pcb q).toProc.preemptDisabled := by
      rw [s.toProc_modify]
      split
      next => exact hf _
      next => rfl
    exact hproc
  cases h with
  | priority h => exact hkept _ fun _ => rfl
  | tickets h => exact hkept _ fun _ => rfl
  | @queuePriority value level h0 hn hlevel =>
      obtain ⟨hlinks, hqueue, hcurrent, hguard⟩ :=
        hkept (fun b => { b with queuePriority := level }) fun _ => rfl
      exact ⟨hlinks, hqueue, hcurrent, hguard⟩

/-- The guard around the two assignments of a level is closed again. -/
theorem relevel_guarded (s : KState) (p : Pid) (level : Int) :
    preemptEnable { (preemptDisable s).modify p fun b => { b with queuePriority := level } with
      queueLevel := update s.queueLevel p level } =
    { s.modify p fun b => { b with queuePriority := level } with
      queueLevel := update s.queueLevel p level } := by
  have hpcb : (preemptEnable { (preemptDisable s).modify p fun b =>
      { b with queuePriority := level } with queueLevel := update s.queueLevel p level }).pcb =
      (s.modify p fun b => { b with queuePriority := level }).pcb := by
    funext q
    by_cases hp : q = p <;> by_cases hc : q = s.currentProcess <;>
      simp_all [preemptEnable, preemptDisable, KState.modify, update_apply]
  exact congrArg (fun pcb => { s with
    queueLevel := update s.queueLevel p level
    pcb := pcb }) hpcb

theorem schedSetParam_sets (s : KState) (p : Pid) (param value : Int) :
    SetsOrFails alg s (· = p) param value (schedSetParam alg s p param value) := by
  unfold schedSetParam
  have hsets : ∀ {t}, p ≠ initProcess → Sets alg p s param value t →
      SetsOrFails alg s (· = p) param value (0, t) := fun hp h => .inr ⟨rfl, p, rfl, hp, h, h.kept⟩
  split
  next => exact .inl rfl
  next hp =>
    split
    next hparam =>
      subst hparam
      split
      next => exact .inl rfl
      next hv => exact hsets hp (.priority (Int.not_lt.mp hv))
    next =>
      split
      next hparam =>
        subst hparam
        split
        next => exact .inl rfl
        next hv => exact hsets hp (.tickets (Int.not_lt.mp hv))
      next =>
        split
        next hparam =>
          subst hparam
          split
          next => exact .inl rfl
          next hv =>
            rw [not_or, Int.not_lt, Int.not_le] at hv
            refine hsets hp ?_
            have hlevel := Sets.queuePriority (p := p) (s := s) hv.1 hv.2
              (clampLevel_eq_min alg hv.2)
            exact Eq.mp (congrArg _ (relevel_guarded s p _).symm) hlevel
        next => exact .inl rfl

/-! ## Runs -/

/-- The parameters of the registered processes are legal. -/
structure KState.Legal (alg : Algorithm) (s : KState) : Prop where
  proc : ∀ p, s.processes p = some p → (s.pcb p).toProc.Legal
  level : ∀ p, s.processes p = some p → 0 ≤ s.queueLevel p ∧ s.queueLevel p < alg.nLevels

/-- The runs start at boot or, since the non-preemptive algorithms never leave init, with any
running process and legal parameters. -/
inductive LegalStart (alg : Algorithm) : KState → Prop
  | boot (timer : Nat → BitVec 32) : LegalStart alg (boot timer)
  | running {s : KState} (start : Start s) (legal : s.Legal alg) : LegalStart alg s

theorem Represents.legal_iff {a : Sched} (h : Represents s a) : s.Legal alg ↔ a.Legal alg := by
  have hproc : ∀ p, (s.pcb p).toProc = a.proc p := h.refines.proc
  have hlevel := h.refines.queueLevel
  constructor
  · rintro ⟨hlegal, hrange⟩
    refine ⟨fun p hp => ?_, fun p hp => ?_⟩
    · exact hproc p ▸ hlegal p (h.registered_iff.mpr hp)
    · exact hlevel ▸ hrange p (h.registered_iff.mpr hp)
  · rintro ⟨hlegal, hrange⟩
    refine ⟨fun p hp => ?_, fun p hp => ?_⟩
    · exact (hproc p).symm ▸ hlegal p (h.registered_iff.mp hp)
    · exact hlevel.symm ▸ hrange p (h.registered_iff.mp hp)

theorem legal_boot (alg : Algorithm) (timer : Nat → BitVec 32) : (boot timer).Legal alg where
  proc _ _ := (⟨by decide, by decide, by decide⟩ : initPcb.toProc.Legal)
  level _ _ := ⟨le_rfl, (by decide : (0 : Int) < 5).trans_eq (Sched.nLevels_eq alg).symm⟩

theorem LegalStart.represents (h : LegalStart alg s) :
    Represents s s.abstract ∧ s.abstract.Legal alg := by
  cases h with
  | boot timer =>
      have hrep := represents_boot timer
      exact ⟨hrep, hrep.legal_iff.mp (legal_boot alg timer)⟩
  | running start legal => exact ⟨start.represents, start.represents.legal_iff.mp legal⟩

theorem Refines.search_some {a : Sched} {pid : Int} (h : Refines s a) (hlaw : a.Law)
    (hp : Demoos.searchProcess s pid = some p) : s.processes p = some p ∧ (p : Int) = pid := by
  rw [h.searchProcess hlaw, Sched.search] at hp
  obtain ⟨⟨h0, hn⟩, hpid⟩ := Option.ite_none_right_eq_some.mp hp
  obtain rfl := Option.some.inj hpid
  have hpid : ((pid.toNat : Nat) : Int) = pid := Int.toNat_of_nonneg h0
  exact ⟨(h.registered_iff hlaw).mpr (Int.ofNat_lt.mp (hpid.trans_lt hn)), hpid⟩

/-- In every run the parameters of the registered processes are legal.  A call for one of them
or for any pid sets the field that it was asked to, or it fails and changes nothing. -/
theorem parameters_legal (h : Transition.Reachable (LegalStart alg) (Next alg) s) :
    s.Legal alg ∧
    (∀ p param value,
      SetsOrFails alg s (· = p) param value (schedSetParam alg s p param value)) ∧
    ∀ pid param value, SetsOrFails alg s (fun p => s.processes p = some p ∧ (p : Int) = pid) param
      value (syscallSetSchedParam alg s pid param value) := by
  obtain ⟨s₀, h₀, hrun⟩ := h
  obtain ⟨hrep, hlegal⟩ := h₀.represents
  obtain ⟨a, ha, hl⟩ := hrep.run hlegal hrun fun _ _ _ hlaw hc hl hop hb => hl.step hlaw hc hop hb
  refine ⟨ha.legal_iff.mpr hl, schedSetParam_sets s, fun pid param value => ?_⟩
  unfold syscallSetSchedParam
  cases hp : searchProcess s pid with
  | none => exact .inl rfl
  | some p =>
      refine (schedSetParam_sets s p param value).imp_right ?_
      rintro ⟨hzero, q, rfl, hinit, hsets, hkept⟩
      exact ⟨hzero, q, ha.refines.search_some ha.law hp, hinit, hsets, hkept⟩

/-- Under MLFQ a parent of level `3` and its child, which inherits the level. -/
theorem legal_mlfq : ∃ s, afterBoot .mlfq [.copyProcess true, .timerTick,
    .setParam 1 schedParamQueuePriority 3, .copyProcess true] = some s ∧
      (s.pcb 2).queuePriority = 3 ∧ s.Legal .mlfq := by
  obtain ⟨s, hs, -, hlevel⟩ := exists_afterBoot .mlfq [.copyProcess true, .timerTick,
    .setParam 1 schedParamQueuePriority 3, .copyProcess true]
    (fun s => (s.pcb 2).queuePriority = 3) (by decide +kernel)
  exact ⟨s, hs, hlevel, (parameters_legal ⟨_, .boot _, run_runOps hs⟩).1⟩

end Demoos
