import Demoos.Scheduler.Primitives

/-!
# Round Robin and the multilevel queue

MLQ with every process at level `0` is Round Robin.  A process gets another level
from `sched_set_param` or from its parent only, so a run without the first keeps
all of them at `0` (`Flat`).  `oneLevel` reads a state of Round Robin as one of
MLQ, with the ready queue as level `0`, and every operation commutes with it.
-/

namespace Demoos

open Function (update)

namespace Sched

variable {op : Op} {a b : Sched} {p : Pid}

/-! ## Levels -/

/-- Every process has the first level, for now and for its children. -/
structure Flat (a : Sched) : Prop where
  level : ∀ p, a.queueLevel p = 0
  priority : ∀ p, (a.proc p).queuePriority = 0

theorem Flat.prim (hop : op.KeepsLevel) (h : a.Flat) (hb : Prim .roundRobin op a b) : b.Flat := by
  cases hb with
  | write p f hf =>
      refine ⟨h.level, fun q => ?_⟩
      rw [proc_modify]
      split
      next e => subst e; exact (hf.queuePriority_eq hop).trans (h.priority q)
      next => exact h.priority q
  | enqueue p hp hlt =>
      refine ⟨fun q => ?_, fun q => ?_⟩
      · rw [toGlobals_enqueue]; exact h.level q
      · rw [proc_enqueue]
        split <;> exact h.priority q
  | enroll hu hcur hn =>
      have hchild : a.child.queuePriority = 0 := h.priority a.currentProcess
      refine ⟨fun q => ?_, fun q => ?_⟩
      · have hlevel : startLevel .roundRobin a.child = 0 := by rw [startLevel, hchild]; rfl
        refine (Function.update_apply a.queueLevel _ _ q).trans ?_
        split
        next => exact hlevel
        next => exact h.level q
      · rw [proc_enroll]
        split
        next => exact hchild
        next => exact h.priority q
  | count hop => exact ⟨h.level, h.priority⟩
  | boost policy hop hp => exact absurd hp (by simp [Algorithm.mlPolicy])
  | demote policy hop hp => exact absurd hp (by simp [Algorithm.mlPolicy])
  | relevel p v level he => subst he; exact absurd rfl hop

theorem Flat.dispatch (h : a.Flat) (c : Choice) : (a.dispatch c).Flat := by
  refine ⟨h.level, fun p => ?_⟩
  rw [field_dispatch a c p Proc.queuePriority (fun _ _ => rfl) fun _ _ => rfl, proc_commit]
  split
  next =>
    exact (Proc.field_handled _ Proc.queuePriority (fun _ _ => rfl) fun _ _ => rfl).trans
      (h.priority p)
  next => exact h.priority p

/-! ## The reading -/

/-- The state of MLQ in which the ready queue is level `0`. -/
def oneLevel (a : Sched) : Sched :=
  { a with list := fun l => if l = .mlQueues 0 then a.list .readyQueue else [] }

theorem list_oneLevel (a : Sched) (l : ReadyList) :
    a.oneLevel.list l = if l = .mlQueues 0 then a.list .readyQueue else [] := rfl

theorem oneLevel_enqueue (h : ∀ p, a.queueLevel p = 0) (p : Pid) :
    (a.enqueue .roundRobin p).oneLevel = a.oneLevel.enqueue .mlq p := by
  unfold enqueue
  split
  next => rfl
  next =>
    have hhome : a.oneLevel.home .mlq p = .mlQueues 0 := congrArg ReadyList.mlQueues (h p)
    rw [hhome]
    refine Sched.ext rfl rfl rfl rfl rfl rfl rfl rfl (funext fun l => ?_)
    rw [list_oneLevel, list_setList, list_setList]
    split
    next => rfl
    next hl => exact (if_neg hl).symm

theorem oneLevel_wakeAll (hlaw : a.Law) (h : ∀ p, a.queueLevel p = 0) {waits : Proc → Bool}
    {wake : Proc → Proc} (hw : Waker waits wake) (n : Nat) :
    (a.wakeAll .roundRobin waits wake n).oneLevel = a.oneLevel.wakeAll .mlq waits wake n := by
  induction n with
  | zero => rfl
  | succ n ih =>
      have hglobals := toGlobals_wakeAll .roundRobin hlaw hw n
      rw [wakeAll_succ, wakeAll_succ, ← ih]
      generalize a.wakeAll .roundRobin waits wake n = b at hglobals ⊢
      have htable : b.oneLevel.processes = b.processes := rfl
      rw [wakeSlot, wakeSlot, htable]
      cases b.processes n with
      | none => rfl
      | some p =>
          dsimp only
          change _ = if waits (b.proc p) then (b.modify p wake).oneLevel.enqueue .mlq p
            else b.oneLevel
          by_cases hb : waits (b.proc p) = true
          · rw [if_pos hb, if_pos hb]
            refine oneLevel_enqueue (fun q => ?_) p
            rw [toGlobals_modify, hglobals]
            exact h q
          · rw [if_neg hb, if_neg hb]

theorem oneLevel_handleUartIrq (hlaw : a.Law) (h : ∀ p, a.queueLevel p = 0) (mis : BitVec 32)
    (fifo : List (BitVec 32)) :
    (a.handleUartIrq .roundRobin mis fifo).oneLevel = a.oneLevel.handleUartIrq .mlq mis fifo := by
  have hw := waker_state .waitingUartInput rfl
  unfold handleUartIrq
  split
  next =>
    induction fifo generalizing a with
    | nil => rfl
    | cons dr fifo ih =>
        rw [List.foldl_cons, List.foldl_cons]
        unfold uartReceive
        by_cases hdr : (dr >>> 8) &&& 0xF#32 = 0#32
        · rw [if_pos hdr, if_pos hdr]
          rw [show a.oneLevel.nProcesses = a.nProcesses from rfl,
            ← oneLevel_wakeAll hlaw h hw a.nProcesses]
          refine ih (hlaw.wakeAll .roundRobin hw _) fun p => ?_
          rw [toGlobals_wakeAll .roundRobin hlaw hw]
          exact h p
        · rw [if_neg hdr, if_neg hdr]
          exact ih hlaw h
  next => rfl

theorem oneLevel_accountTick (a : Sched) :
    (a.accountTick .roundRobin).oneLevel = a.oneLevel.accountTick .mlq := by
  simp [accountTick, onTick, Algorithm.mlPolicy, multilevelOnTick, demoteIfExpired, boostIfDue, mlPolicyMlq, oneLevel, modify]

theorem oneLevel_copyProcess (h : a.Flat) (page : Bool) :
    (a.copyProcess .roundRobin page).oneLevel = a.oneLevel.copyProcess .mlq page := by
  have hchild : a.preemptDisable.child.queuePriority = 0 :=
    (field_modify a a.currentProcess a.currentProcess
      (fun b => { b with preemptDisabled := b.preemptDisabled + 1 }) Proc.queuePriority
      fun _ => rfl).trans (h.priority _)
  have henroll : (a.preemptDisable.enroll .roundRobin a.preemptDisable.child).oneLevel =
      a.oneLevel.preemptDisable.enroll .mlq a.oneLevel.preemptDisable.child := by
    have hlevel : startLevel .roundRobin a.preemptDisable.child =
        startLevel .mlq a.preemptDisable.child := by
      rw [startLevel, startLevel, hchild]
      rfl
    unfold enroll
    rw [hlevel]
    rfl
  unfold copyProcess
  dsimp only
  change _ = if page = false ∨ maxProcesses ≤ a.preemptDisable.nProcesses then
    a.preemptDisable.oneLevel else _
  split
  next => rfl
  next =>
    have henqueue := oneLevel_enqueue (a := a.preemptDisable.enroll .roundRobin
      a.preemptDisable.child) (fun q => ?_) a.nProcesses
    · rw [henroll] at henqueue
      exact congrArg preemptEnable henqueue
    · refine (Function.update_apply a.queueLevel _ _ q).trans ?_
      split
      next => rw [startLevel, hchild]; rfl
      next => exact h.level q

theorem oneLevel_closeBurst (a : Sched) : a.closeBurst.oneLevel = a.oneLevel.closeBurst := by
  unfold closeBurst
  by_cases hb : a.currentProcess ≠ initProcess ∧ a.current.state ≠ .running ∧
      a.current.state ≠ .ready
  · have hb' : a.oneLevel.currentProcess ≠ initProcess ∧ a.oneLevel.current.state ≠ .running ∧
      a.oneLevel.current.state ≠ .ready := hb
    rw [if_pos hb, if_pos hb']
    rfl
  · have hb' : ¬ (a.oneLevel.currentProcess ≠ initProcess ∧ a.oneLevel.current.state ≠ .running ∧
      a.oneLevel.current.state ≠ .ready) := hb
    rw [if_neg hb, if_neg hb']
    rfl

theorem oneLevel_retireCurrent (hlaw : a.preemptDisable.die.Law) (h : a.Flat) :
    (a.retireCurrent .roundRobin).oneLevel = a.oneLevel.retireCurrent .mlq := by
  have hwake := oneLevel_wakeAll hlaw h.level (waker_waitsFor a.currentProcess) maxProcesses
  unfold retireCurrent
  generalize maxProcesses = n at hwake ⊢
  exact congrArg preemptEnable hwake

theorem oneLevel_wakeReceiver (h : a.Flat) (p : Pid) :
    (a.wakeReceiver .roundRobin p).oneLevel = a.oneLevel.wakeReceiver .mlq p := by
  unfold wakeReceiver
  change _ = if (a.proc p).state = .waitingToReceiveMessage then _ else _
  split
  next => exact oneLevel_enqueue (a := a.modify p Proc.makeReady) h.level p
  next => rfl

theorem oneLevel_schedSetParam (a : Sched) (p : Pid) {param : Int} (value : Int)
    (hparam : param ≠ schedParamQueuePriority) :
    (a.schedSetParam .roundRobin p param value).oneLevel =
      a.oneLevel.schedSetParam .mlq p param value := by
  unfold schedSetParam
  split
  next => rfl
  next =>
    split
    next => split <;> rfl
    next =>
      split
      next => split <;> rfl
      next => rfl

/-! ## Operations -/

theorem oneLevel_before (hlaw : a.Law) (hc : a.Current) (h : a.Flat) (hop : op.KeepsLevel) :
    (a.before .roundRobin op).oneLevel = a.oneLevel.before .mlq op := by
  cases op with
  | timerTick =>
      simp only [before]
      rw [← oneLevel_accountTick]
      change _ = if (a.accountTick .roundRobin).sliceOver then _ else _
      split <;> rfl
  | uartIrq mis fifo => exact oneLevel_handleUartIrq hlaw h.level mis fifo
  | yield => exact oneLevel_closeBurst _
  | block why => exact oneLevel_closeBurst _
  | wait pid =>
      simp only [before]
      change _ = if a.blocksOn pid then _ else _
      split
      next => exact oneLevel_closeBurst _
      next => rfl
  | exit =>
      have hdie : a.preemptDisable.die.Law := by
        rw [← die_preemptDisable]
        exact (hlaw.givenUp hc .exit).calm_preemptDisable.law
      exact (oneLevel_closeBurst _).trans (congrArg closeBurst (oneLevel_retireCurrent hdie h))
  | copyProcess page => exact oneLevel_copyProcess h page
  | wakeReceiver p => exact oneLevel_wakeReceiver h p
  | wakeSenders => exact oneLevel_wakeAll hlaw h.level (waker_state _ rfl) _
  | sendSignal p k => rfl
  | setParam p param value => exact oneLevel_schedSetParam a p value hop

theorem oneLevel_decides (a : Sched) (op : Op) :
    a.oneLevel.decides .mlq op = a.decides .roundRobin op := by
  cases op with
  | timerTick =>
      unfold decides
      rw [← oneLevel_accountTick]
      rfl
  | _ => rfl

/-! ## Decisions -/

theorem oneLevel_contest (h : a.Flat) :
    (a.contest .roundRobin).oneLevel = a.oneLevel.contest .mlq := by
  unfold contest requeueCurrent
  change _ = if a.preemptDisable.currentProcess ≠ initProcess ∧
    a.preemptDisable.current.state = .running then _ else _
  split
  next => exact oneLevel_enqueue (a := a.preemptDisable) h.level _
  next => rfl

theorem byLevel_oneLevel (a : Sched) :
    a.oneLevel.byLevel mlPolicyMlq = a.list .readyQueue := by
  have hlevels : mlPolicyMlq.levels = [0, 1, 2, 3, 4] := rfl
  simp [byLevel, hlevels, list_oneLevel]

/-- A process of the ready queue gets the quantum of level `0`, which is the slice
of Round Robin. -/
theorem levelQuantum_oneLevel (hp : p ∈ a.list .readyQueue) :
    a.oneLevel.levelQuantum mlPolicyMlq p = some 10 := by
  have hlevels : mlPolicyMlq.levels = 0 :: [1, 2, 3, 4] := rfl
  have hfirst : p ∈ a.oneLevel.list (.mlQueues 0) := hp
  rw [levelQuantum, hlevels, List.find?_cons_of_pos (by simpa using hfirst)]
  rfl

theorem oneLevel_select (a : Sched) : a.oneLevel.select .mlq = a.select .roundRobin := by
  change some (a.oneLevel.frontChoice (a.oneLevel.byLevel mlPolicyMlq) _) = some _
  rw [byLevel_oneLevel]
  refine congrArg some ?_
  unfold frontChoice
  dsimp only
  congr 1
  funext p
  change (if (scan (fun p => (a.proc p).barred) (a.list .readyQueue)).2 = some p then
    (a.oneLevel.levelQuantum mlPolicyMlq p).getD _ else _) = _
  split
  next hp => rw [levelQuantum_oneLevel (scan_subset (scan_next hp).1)]; rfl
  next => rfl

theorem oneLevel_dispatch (a : Sched) (c : Choice) :
    (a.dispatch c).oneLevel = a.oneLevel.dispatch c := by
  refine Sched.ext rfl rfl rfl rfl rfl rfl rfl rfl (funext fun l => ?_)
  change (if l = .mlQueues 0 then (a.list .readyQueue).filter _ else []) =
    (if l = .mlQueues 0 then a.list .readyQueue else []).filter _
  split
  next => rfl
  next => rfl

theorem oneLevel_pickNext (h : a.Flat) :
    a.oneLevel.pickNext .mlq = (a.pickNext .roundRobin).map oneLevel := by
  unfold pickNext
  rw [← oneLevel_contest h, oneLevel_select, Option.map_map]
  refine congrArg (Option.map · _) (funext fun c => ?_)
  exact (oneLevel_dispatch _ c).symm

theorem oneLevel_step (hlaw : a.Law) (hc : a.Current) (h : a.Flat) (hop : op.Enabled a.toGlobals)
    (hkeep : op.KeepsLevel) :
    a.oneLevel.step .mlq op = (a.step .roundRobin op).map oneLevel := by
  have hbefore := oneLevel_before hlaw hc h hkeep
  have hflat : (a.before .roundRobin op).Flat :=
    Prims.invariant (fun _ _ hf => hf.prim hkeep) (hlaw.prims_before hc hop) h
  unfold step
  rw [oneLevel_decides, ← hbefore]
  split
  next => exact oneLevel_pickNext hflat
  next => rfl

theorem Flat.step (hlaw : a.Law) (hc : a.Current) (h : a.Flat) (hop : op.Enabled a.toGlobals)
    (hkeep : op.KeepsLevel) (hb : a.step .roundRobin op = some b) : b.Flat :=
  hlaw.prim_invariant hc hop (fun _ _ hf => hf.prim hkeep) (fun _ c _ _ hf => hf.dispatch c) hb h

end Sched

/-! ## Runs -/

/-- The state `s` of Round Robin and the state `t` of MLQ are the same, up to where
the ready processes are queued. -/
structure Agrees (s t : KState) : Prop where
  globals : t.toGlobals = s.toGlobals
  proc : ∀ p, (t.pcb p).toProc = (s.pcb p).toProc
  first : t.contents (.mlQueues 0) = s.contents .readyQueue
  others : ∀ l, l ≠ .mlQueues 0 → t.contents l = []

/-- Behind both is one abstract state of Round Robin. -/
def Twins (s t : KState) : Prop := ∃ a, Represents s a ∧ Represents t a.oneLevel ∧ a.Flat

theorem Twins.agrees {s t : KState} (h : Twins s t) : Agrees s t := by
  obtain ⟨a, hs, ht, _⟩ := h
  refine ⟨ht.refines.globals.trans hs.refines.globals.symm,
    fun p => (ht.refines.proc p).trans (hs.refines.proc p).symm, ?_, fun l hl => ?_⟩
  · rw [ht.contents_eq, hs.contents_eq]
    rfl
  · rw [ht.contents_eq]
    exact if_neg hl

theorem twins_boot (timer : Nat → BitVec 32) : Twins (boot timer) (boot timer) := by
  have hone : (boot timer).abstract.oneLevel = (boot timer).abstract := by
    refine Sched.ext rfl rfl rfl rfl rfl rfl rfl rfl (funext fun l => ?_)
    rw [Sched.list_oneLevel]
    split <;> rfl
  refine ⟨_, represents_boot timer, ?_, ⟨fun _ => rfl, fun _ => rfl⟩⟩
  rw [hone]
  exact represents_boot timer

theorem Twins.step {s t : KState} {op : Op} (h : Twins s t) (hop : op.Enabled s.toGlobals)
    (hkeep : op.KeepsLevel) : Option.Rel Twins (step .roundRobin s op) (step .mlq t op) := by
  obtain ⟨a, hs, ht, hflat⟩ := h
  have hop' : op.Enabled a.toGlobals := by rw [← hs.refines.globals]; exact hop
  have hopt : op.Enabled t.toGlobals := by rw [ht.refines.globals]; exact hop'
  have hone := Sched.oneLevel_step hs.law hs.current hflat hop' hkeep
  have hrel := hs.refines.step .roundRobin hs.law hs.current hop'
  cases ha : a.step .roundRobin op with
  | none =>
      rw [ha] at hone hrel
      have hrelt := ht.refines.step .mlq ht.law ht.current hop'
      rw [hone] at hrelt
      generalize Demoos.step .roundRobin s op = o at hrel ⊢
      generalize Demoos.step .mlq t op = o' at hrelt ⊢
      cases hrel
      cases hrelt
      exact .none
  | some b =>
      rw [ha] at hone
      obtain ⟨s', hs', hsb⟩ := hs.step_exists hop ha
      obtain ⟨t', ht', htb⟩ := ht.step_exists hopt hone
      rw [hs', ht']
      exact .some ⟨b, hsb, htb, Sched.Flat.step hs.law hs.current hflat hop' hkeep ha⟩

/-- From boot on, any operations that set no level lead Round Robin and MLQ through
the same states. -/
theorem agrees_of_keepsLevel {ops : List Op} (hops : ∀ op ∈ ops, op.KeepsLevel)
    (timer : Nat → BitVec 32) :
    Option.Rel Agrees (runOps .roundRobin ops (boot timer)) (runOps .mlq ops (boot timer)) := by
  have hruns : Option.Rel Twins (runOps .roundRobin ops (boot timer))
      (runOps .mlq ops (boot timer)) := by
    refine Transition.exec_rel (fun op hop s t h => ?_) (twins_boot timer)
    have hglobals : t.toGlobals = s.toGlobals := h.agrees.globals
    rw [hglobals]
    split
    next hen => exact h.step hen (hops op hop)
    next => exact .none
  generalize runOps .roundRobin ops (boot timer) = o at hruns ⊢
  generalize runOps .mlq ops (boot timer) = o' at hruns ⊢
  cases hruns with
  | none => exact .none
  | some h => exact .some h.agrees

/-- Two processes take turns, and the first is stopped while it is queued. -/
def stopping : List Op :=
  [.copyProcess true, .timerTick, .copyProcess true, .yield, .sendSignal 1 2, .yield,
    .setParam 2 schedParamTickets 3]

theorem agrees_stopped : ∃ s t, runOps .roundRobin stopping (boot fun _ => 0) = some s ∧
    runOps .mlq stopping (boot fun _ => 0) = some t ∧ (s.pcb 1).state = .stopped ∧ Agrees s t := by
  obtain ⟨s, hs, _, hstopped⟩ := exists_afterBoot .roundRobin stopping
    (fun s => (s.pcb 1).state = .stopped) (by decide +kernel)
  have hagrees : Option.Rel Agrees (runOps .roundRobin stopping (boot fun _ => 0))
      (runOps .mlq stopping (boot fun _ => 0)) := agrees_of_keepsLevel (by decide) _
  rw [show runOps .roundRobin stopping (boot fun _ => 0) = some s from hs] at hagrees
  generalize runOps .mlq stopping (boot fun _ => 0) = o at hagrees
  cases hagrees with
  | some h => exact ⟨s, _, hs, rfl, hstopped, h⟩

end Demoos
