import Demoos.Scheduler.Signals

/-!
# Operations as sequences of writes

Up to its dispatch an operation is a sequence of a few kinds of writes: a field of
one process, an insertion, a new process, and the levels and the boost of the
multilevel algorithms.  `Prim` lists them, each with what is known where it
occurs.  An invariant that these writes and `dispatch` keep holds in every run
(`Law.prim_invariant`), and no invariant has to go through the operations again.
-/

namespace Demoos

open Function (update)
open Relation (ReflTransGen)

/-- A write to the fields of the process `p` in the course of `op`. -/
inductive Proc.Write (op : Op) (p : Pid) (b : Proc) : Proc → Prop
  | state (st : ProcessState) : Write op p b { b with state := st }
  | wait (st : ProcessState) (pid : Int) : Write op p b { b with state := st, pidToWait := pid }
  | guard (n : Int) : Write op p b { b with preemptDisabled := n }
  | signals (k : BitVec 32) : Write op p b { b with pendingSignals := k }
  | tick (h : op = .timerTick) : Write op p b b.tick
  | slice : Write op p b { b with counter := 0 }
  | burst : Write op p b b.endBurst
  | priority (v : Int) (h : op = .setParam p schedParamPriority v) (hv : 1 ≤ v) :
      Write op p b { b with priority := v }
  | tickets (v : Int) (h : op = .setParam p schedParamTickets v) (hv : 1 ≤ v) :
      Write op p b { b with tickets := v }
  | queuePriority (v level : Int) (h : op = .setParam p schedParamQueuePriority v) :
      Write op p b { b with queuePriority := level }

/-- Every operation but `sched_set_param(SCHED_PARAM_QUEUE_PRIORITY)`. -/
def Op.KeepsLevel : Op → Prop
  | .setParam _ param _ => param ≠ schedParamQueuePriority
  | _ => True

instance (op : Op) : Decidable op.KeepsLevel :=
  match op with
  | .setParam _ param _ => inferInstanceAs (Decidable (param ≠ schedParamQueuePriority))
  | .timerTick | .uartIrq _ _ | .yield | .block _ | .wait _ | .exit | .copyProcess _
  | .wakeReceiver _ | .wakeSenders | .sendSignal _ _ => .isTrue trivial

theorem Proc.Write.queuePriority_eq {op : Op} {p : Pid} {b b' : Proc} (h : b.Write op p b')
    (hop : op.KeepsLevel) : b'.queuePriority = b.queuePriority := by
  cases h with
  | queuePriority v level h => subst h; exact absurd rfl hop
  | _ => rfl

theorem Proc.Write.counter_le {op : Op} {p : Pid} {b b' : Proc} (h : b.Write op p b') :
    b'.counter ≤ b.counter ∨ b'.counter = 0 := by
  cases h with
  | tick he => exact .inl (Int.sub_le_self _ (by decide))
  | slice => exact .inr rfl
  | _ => exact .inl le_rfl

namespace Sched

/-- One write of an operation. -/
inductive Prim (alg : Algorithm) (op : Op) (a : Sched) : Sched → Prop
  | write (p : Pid) (f : Proc → Proc) (h : (a.proc p).Write op p (f (a.proc p))) :
      Prim alg op a (a.modify p f)
  | enqueue (p : Pid) (hp : a.Unlinked p) (hlt : p < a.nProcesses) :
      Prim alg op a (a.enqueue alg p)
  | enroll (hu : a.Unlinked a.nProcesses) (hcur : a.currentProcess < a.nProcesses)
      (hn : a.nProcesses < maxProcesses) : Prim alg op a (a.enroll alg a.child)
  | count (h : op = .timerTick) :
      Prim alg op a { a with mlTicksSinceBoost := a.mlTicksSinceBoost + 1 }
  | boost (policy : MultilevelPolicy) (h : op = .timerTick) (hp : alg.mlPolicy = some policy) :
      Prim alg op a (a.boost policy)
  | demote (policy : MultilevelPolicy) (h : op = .timerTick) (hp : alg.mlPolicy = some policy)
      (hd : policy.demoteOnExpiry = true) (hu : a.Unlinked a.currentProcess)
      (hl : a.queueLevel a.currentProcess < policy.nLevels - 1) :
      Prim alg op a { a with
        queueLevel := update a.queueLevel a.currentProcess (a.queueLevel a.currentProcess + 1) }
  | relevel (p : Pid) (v level : Int) (h : op = .setParam p schedParamQueuePriority v) :
      Prim alg op a { a with queueLevel := update a.queueLevel p level }

/-- What every row satisfies, and a write to a row and a child keep, every row satisfies afterwards. -/
theorem Prim.forall_proc {alg : Algorithm} {op : Op} {a b : Sched} {P : Proc → Prop}
    (hb : Prim alg op a b) (h : ∀ p, p < a.nProcesses → P (a.proc p))
    (hwrite : ∀ p r r', Proc.Write op p r r' → P r → P r')
    (hchild : a.currentProcess < a.nProcesses → P a.child) :
    ∀ p, p < b.nProcesses → P (b.proc p) := by
  intro q hq
  cases hb with
  | write p f hf =>
      rw [proc_modify]
      split
      next e => subst e; exact hwrite q _ _ hf (h q hq)
      next => exact h q hq
  | enqueue p hp hlt =>
      rw [toGlobals_enqueue] at hq
      rw [proc_enqueue]
      split
      next => exact hwrite q _ _ (.state .ready) (h q hq)
      next => exact h q hq
  | enroll hu hcur hn =>
      rw [proc_enroll]
      split
      next => exact hchild hcur
      next hne => exact h q (Nat.lt_of_le_of_ne (Nat.lt_succ_iff.mp hq) hne)
  | count he => exact h q hq
  | boost policy he hp => exact h q hq
  | demote policy he hp hd hu hl => exact h q hq
  | relevel p v level he => exact h q hq

/-- The writes of a part of an operation. -/
abbrev Prims (alg : Algorithm) (op : Op) : Sched → Sched → Prop := ReflTransGen (Prim alg op)

section Parts

variable {alg : Algorithm} {op : Op} {a b : Sched} {p : Pid}

theorem Prims.write (p : Pid) {f : Proc → Proc} (h : (a.proc p).Write op p (f (a.proc p))) :
    Prims alg op a (a.modify p f) := .single (.write p f h)

theorem prims_preemptDisable (a : Sched) : Prims alg op a a.preemptDisable :=
  .write _ (.guard _)

theorem prims_preemptEnable (a : Sched) : Prims alg op a a.preemptEnable :=
  .write _ (.guard _)

theorem prims_setCounter (a : Sched) (p : Pid) : Prims alg op a (a.setCounter p 0) :=
  .write p .slice

theorem prims_closeBurst (a : Sched) : Prims alg op a a.closeBurst := by
  unfold closeBurst
  split
  next =>
    have hburst : Prims alg op a (a.modify a.currentProcess Proc.endBurst) := .write _ .burst
    exact hburst.trans (prims_setCounter _ _)
  next => exact prims_setCounter _ _

/-- A process that was blocked becomes ready. -/
theorem Law.prims_wake (h : a.Law) {waits : Proc → Bool} {wake : Proc → Proc}
    (hw : Waker waits wake) (hb : waits (a.proc p) = true) (hlt : p < a.nProcesses)
    (hf : (a.proc p).Write op p (wake (a.proc p))) :
    Prims alg op a ((a.modify p wake).enqueue alg p) :=
  (Prims.write p hf).tail (.enqueue p (h.unlinked (hw.notReady hb)) hlt)

theorem Law.prims_wakeAll (h : a.Law) {waits : Proc → Bool} {wake : Proc → Proc}
    (hw : Waker waits wake) (hf : ∀ (b : Proc) p, b.Write op p (wake b)) (n : Nat) :
    Prims alg op a (a.wakeAll alg waits wake n) := by
  induction n with
  | zero => exact .refl
  | succ n ih =>
      have hlaw := h.wakeAll alg hw n
      rw [wakeAll_succ, wakeSlot_eq alg hlaw]
      split
      next hc => exact ih.trans (hlaw.prims_wake hw hc.2 hc.1 (hf _ _))
      next => exact ih

theorem write_makeReady (b : Proc) (p : Pid) : b.Write op p b.makeReady := .state .ready

theorem write_endWait (b : Proc) (p : Pid) : b.Write op p b.endWait := .wait .ready (-1)

theorem Law.prims_handleUartIrq (h : a.Law) (mis : BitVec 32) (fifo : List (BitVec 32)) :
    Prims alg op a (a.handleUartIrq alg mis fifo) := by
  rcases h.handleUartIrq_cases alg mis fifo with he | he
  · rw [he]
  · rw [he]
    exact h.prims_wakeAll (waker_state .waitingUartInput rfl) write_makeReady _

theorem Law.prims_boostIfDue (h : a.Law) (hc : a.Outgoing) {policy : MultilevelPolicy}
    (hp : alg.mlPolicy = some policy) (hop : op = .timerTick) :
    Prims alg op a (a.boostIfDue policy) ∧
      (a.boostIfDue policy).Unlinked (a.boostIfDue policy).currentProcess := by
  have hu := h.unlinked_current hc
  have hcount : Prims alg op a { a with mlTicksSinceBoost := a.mlTicksSinceBoost + 1 } :=
    .single (.count hop)
  unfold boostIfDue
  split
  next =>
    dsimp only
    split
    next =>
      refine ⟨hcount.tail (.boost policy hop hp), fun l hl => ?_⟩
      obtain ⟨l', hl', _⟩ := (mem_boost (zero_mem_levels alg hp)).mp hl
      exact hu l' hl'
    next => exact ⟨hcount, hu⟩
  next => exact ⟨.refl, hu⟩

theorem prims_demoteIfExpired {policy : MultilevelPolicy} (hu : a.Unlinked a.currentProcess)
    (hp : alg.mlPolicy = some policy) (hop : op = .timerTick) :
    Prims alg op a (a.demoteIfExpired policy) := by
  unfold demoteIfExpired
  split
  next hd => exact .single (.demote policy hop hp hd.1 hu hd.2.2.2.2)
  next => exact .refl

theorem Law.prims_multilevelOnTick (h : a.Law) (hc : a.Outgoing) {policy : MultilevelPolicy}
    (hp : alg.mlPolicy = some policy) (hop : op = .timerTick) :
    Prims alg op a (a.multilevelOnTick policy) := by
  obtain ⟨hboost, hu⟩ := h.prims_boostIfDue hc hp hop
  exact hboost.trans (prims_demoteIfExpired hu hp hop)

theorem Law.prims_accountTick (h : a.Law) (hc : a.Outgoing) (hop : op = .timerTick) :
    Prims alg op a (a.accountTick alg) := by
  have htick : Prims alg op a (a.modify a.currentProcess Proc.tick) := .write _ (.tick hop)
  have hlaw : (a.modify a.currentProcess Proc.tick).Law := h.modify rfl
  have hout : (a.modify a.currentProcess Proc.tick).Outgoing := by
    refine ⟨hc.registered, fun hi => ?_⟩
    have hstate : ((a.modify a.currentProcess Proc.tick).proc a.currentProcess).state =
        (a.proc a.currentProcess).state := field_modify _ _ _ _ Proc.state fun _ => rfl
    rw [current, toGlobals_modify, hstate]
    exact hc.notReady hi
  unfold accountTick onTick
  cases hp : alg.mlPolicy with
  | none => exact htick
  | some policy => exact htick.trans (hlaw.prims_multilevelOnTick hout hp hop)

theorem Law.prims_copyProcess (h : a.Law) (hcur : a.currentProcess < a.nProcesses) (page : Bool) :
    Prims alg op a (a.copyProcess alg page) := by
  have hdis : Prims alg op a a.preemptDisable := prims_preemptDisable a
  unfold copyProcess
  dsimp only
  split
  next => exact hdis
  next hn =>
    have hu : a.preemptDisable.Unlinked a.preemptDisable.nProcesses := h.unlinked_of_le le_rfl
    have henroll : Prims alg op a (a.preemptDisable.enroll alg a.preemptDisable.child) :=
      hdis.tail (.enroll hu hcur (Nat.lt_of_not_le fun hc => hn (.inr hc)))
    exact (henroll.tail (.enqueue _ hu (Nat.lt_succ_self _))).trans (prims_preemptEnable _)

theorem prims_schedSetParam (a : Sched) (p : Pid) (param value : Int) :
    Prims alg (.setParam p param value) a (a.schedSetParam alg p param value) := by
  unfold schedSetParam
  split
  next => exact .refl
  next =>
    split
    next hparam =>
      subst hparam
      split
      next => exact .refl
      next hv => exact .write p (.priority value rfl (Int.not_lt.mp hv))
    next =>
      split
      next hparam =>
        subst hparam
        split
        next => exact .refl
        next hv => exact .write p (.tickets value rfl (Int.not_lt.mp hv))
      next =>
        split
        next hparam =>
          subst hparam
          split
          next => exact .refl
          next =>
            have hfield : Prims alg (.setParam p schedParamQueuePriority value) a
                (a.modify p fun b => { b with queuePriority := clampLevel alg value }) :=
              .write p (.queuePriority value _ rfl)
            exact hfield.tail (.relevel p value _ rfl)
        next => exact .refl

theorem Law.prims_before (h : a.Law) (hc : a.Current) (hop : op.Enabled a.toGlobals) :
    Prims alg op a (a.before alg op) := by
  cases op with
  | timerTick =>
      have htick : Prims alg .timerTick a (a.accountTick alg) :=
        h.prims_accountTick hc.outgoing rfl
      simp only [before]
      split
      next => exact htick.trans (prims_setCounter _ _)
      next => exact htick
  | uartIrq mis fifo => exact h.prims_handleUartIrq mis fifo
  | yield => exact (prims_setCounter a _).trans (prims_closeBurst _)
  | block why =>
      have hblock : Prims alg (.block why) a (a.block why) := .write _ (.state why.state)
      exact hblock.trans (prims_closeBurst _)
  | wait pid =>
      simp only [before]
      split
      next =>
        have hwait : Prims alg (.wait pid) a (a.waitFor pid) :=
          .write _ (.wait .waitingAnotherProcess pid)
        exact hwait.trans (prims_closeBurst _)
      next => exact .refl
  | exit =>
      have hdie : Prims alg .exit a a.preemptDisable.die :=
        (prims_preemptDisable a).trans (Prims.write _ (.state .zombie))
      have hlaw := h.dying hc
      have hwake : Prims alg .exit a.preemptDisable.die (a.preemptDisable.die.wakeAll alg
          (Proc.waitsFor a.currentProcess) Proc.endWait maxProcesses) :=
        hlaw.prims_wakeAll (waker_waitsFor _) write_endWait _
      exact ((hdie.trans hwake).trans (prims_preemptEnable _)).trans (prims_closeBurst _)
  | copyProcess page => exact h.prims_copyProcess hc.registered page
  | wakeReceiver p =>
      simp only [before, wakeReceiver]
      split
      next hs =>
        exact h.prims_wake (waker_state .waitingToReceiveMessage rfl) (beq_iff_eq.mpr hs)
          (h.registered_iff.mp hop) (write_makeReady _ p)
      next => exact .refl
  | wakeSenders => exact h.prims_wakeAll (waker_state _ rfl) write_makeReady _
  | sendSignal p k =>
      rw [before, sendSignal]
      exact .write p (.signals _)
  | setParam p param value => exact prims_schedSetParam a p param value

theorem Law.prims_contest (h : a.Law) (hc : a.Outgoing) : Prims alg op a (a.contest alg) := by
  have hdis : Prims alg op a a.preemptDisable := prims_preemptDisable a
  unfold Sched.contest requeueCurrent
  split
  next => exact hdis.tail (.enqueue _ (h.unlinked_current hc) hc.registered)
  next => exact hdis

end Parts

/-! ## Invariants -/

variable {alg : Algorithm} {op : Op} {a b : Sched} {I : Sched → Prop}

theorem Prims.invariant (hprim : ∀ a b, I a → Prim alg op a b → I b) (h : Prims alg op a b)
    (hI : I a) : I b := Transition.run_invariant hprim h hI

/-- What the writes of an operation and the dispatch keep, the operation keeps. -/
theorem Law.prim_invariant (h : a.Law) (hc : a.Current) (hop : op.Enabled a.toGlobals)
    (hprim : ∀ a b, I a → Prim alg op a b → I b)
    (hdispatch : ∀ a c, a.Law → a.select alg = some c → I a → I (a.dispatch c))
    (hb : a.step alg op = some b) (hI : I a) : I b := by
  have hbefore : I (a.before alg op) := Prims.invariant hprim (h.prims_before hc hop) hI
  rcases h.step_cases hc hop hb with ⟨_, c, hd⟩ | ⟨_, rfl⟩
  · have hlaw := (h.calm_before alg hc hop).law
    have hcontest : I ((a.before alg op).contest alg) :=
      Prims.invariant hprim (hlaw.prims_contest (h.outgoing_before hc hop)) hbefore
    rw [hd.result]
    exact hdispatch _ c hd.contest hd.selected hcontest
  · exact hbefore

end Sched

end Demoos
