import Demoos.Lib.Insertion
import Demoos.Scheduler.Primitives
import Demoos.Scheduler.Strict

/-!
# Shortest job first

The ready queue of SJF is sorted by the estimates of the processes in it, and the
processes of one estimate stand in the order in which they were inserted.  Nobody
changes the estimate of a queued process, since `schedule` rewrites that of the current
one, so the order lasts.

An operation inserts at most one process, or some in the order of their slots in
`processes[]`.  So the order of insertion is that of the operations, and of the pids
within one operation.
-/

namespace Demoos

open Insertion

namespace Sched

variable {a b : Sched} {op : Op} {p q : Pid} {rank : Pid → ℕ ×ₗ ℕ}

/-! ## Estimates -/

theorem est_modify (a : Sched) (p q : Pid) {f : Proc → Proc}
    (hf : ∀ b, (f b).estBurst = b.estBurst) : (a.modify p f).est q = a.est q :=
  field_modify a p q f Proc.estBurst hf

theorem est_enqueue (alg : Algorithm) (a : Sched) (p q : Pid) :
    (a.enqueue alg p).est q = a.est q := by
  rw [est, proc_enqueue]
  split <;> rfl

theorem Law.est_wakeAll (h : a.Law) (alg : Algorithm) {waits : Proc → Bool} {wake : Proc → Proc}
    (hw : Waker waits wake) (he : ∀ b, (wake b).estBurst = b.estBurst) (n : Nat) (q : Pid) :
    (a.wakeAll alg waits wake n).est q = a.est q := by
  rw [est, proc_wakeAll alg h hw]
  split
  next => exact he _
  next => rfl

theorem est_setCounter (a : Sched) (p q : Pid) (n : Int) : (a.setCounter p n).est q = a.est q :=
  est_modify a p q fun _ => rfl

theorem est_preemptDisable (a : Sched) (p : Pid) : a.preemptDisable.est p = a.est p :=
  est_modify a _ p fun _ => rfl

theorem est_die (a : Sched) (p : Pid) : a.die.est p = a.est p := est_modify a _ p fun _ => rfl

theorem est_preemptEnable (a : Sched) (p : Pid) : a.preemptEnable.est p = a.est p :=
  est_modify a _ p fun _ => rfl

/-- Does the operation end the burst of the current process? -/
def folds (a : Sched) : Op → Bool
  | .block _ | .exit => true
  | .wait pid => a.blocksOn pid
  | _ => false

/-- The estimate of the next burst, from the measured one and the last estimate. -/
def average (a : Sched) : Int := (a.current.burstTicks + a.current.estBurst).tdiv 2

theorem est_closeBurst (h : a.currentProcess ≠ initProcess) (hrun : a.current.state ≠ .running)
    (hready : a.current.state ≠ .ready) (q : Pid) :
    a.closeBurst.est q = if q = a.currentProcess then a.average else a.est q := by
  rw [closeBurst, if_pos ⟨h, hrun, hready⟩, est_setCounter, est, proc_modify]
  split
  next he => rw [he]; rfl
  next => rfl

theorem est_closeBurst_running (h : a.current.state = .running) (q : Pid) :
    a.closeBurst.est q = a.est q := by
  rw [closeBurst, if_neg fun hc => hc.2.1 h, est_setCounter]

theorem list_closeBurst (a : Sched) : a.closeBurst.list = a.list := by
  unfold closeBurst
  split <;> rfl

/-! ## Insertions -/

/-- The ready queue is in the order of the estimates, and of `rank` among equals. -/
def Shortest (rank : Pid → ℕ ×ₗ ℕ) (a : Sched) : Prop :=
  (a.list .readyQueue).Pairwise (Ahead a.est rank)

/-- `rank` has the processes of a queue in front of all others, and these in their order. -/
structure Fresh (rank : Pid → ℕ ×ₗ ℕ) (xs : List Pid) : Prop where
  old : ∀ p ∈ xs, ∀ q ∉ xs, rank p < rank q
  new : ∀ p ∉ xs, ∀ q ∉ xs, p < q → rank p < rank q

theorem Shortest.congr (h : a.Shortest rank) (hl : b.list = a.list)
    (he : ∀ p ∈ a.list .readyQueue, b.est p = a.est p) : b.Shortest rank := by
  rw [Shortest, hl]
  exact pairwise_congr h he fun _ _ => rfl

theorem Shortest.enqueue (h : a.Shortest rank) (hp : ∀ q ∈ a.list .readyQueue, rank q < rank p) :
    (a.enqueue .sjf p).Shortest rank := by
  have hest : (a.enqueue .sjf p).est = a.est := funext (est_enqueue .sjf a p)
  rw [Shortest, hest]
  unfold Sched.enqueue
  split
  next => exact h
  next =>
    rw [list_setList, if_pos (show ReadyList.readyQueue = a.home .sjf p from rfl)]
    exact pairwise_insert h hp

/-- A loop over the table inserts in the order of the slots. -/
theorem Law.shortest_wakeAll (h : a.Law) {waits : Proc → Bool} {wake : Proc → Proc}
    (hw : Waker waits wake) (he : ∀ b, (wake b).estBurst = b.estBurst) (hs : a.Shortest rank)
    (hr : Fresh rank (a.list .readyQueue)) (n : Nat) :
    (a.wakeAll .sjf waits wake n).Shortest rank ∧
      ∀ q ∈ (a.wakeAll .sjf waits wake n).list .readyQueue, q ∈ a.list .readyQueue ∨ q < n := by
  induction n with
  | zero => exact ⟨hs, fun q hq => .inl hq⟩
  | succ n ih =>
      obtain ⟨hsorted, hmem⟩ := ih
      have hlaw := h.wakeAll .sjf hw n
      rw [wakeAll_succ, wakeSlot_eq .sjf hlaw]
      split
      next hc =>
        have hwaits : waits (a.proc n) = true := by
          rw [proc_wakeAll .sjf h hw, if_neg fun hlt => Nat.lt_irrefl n hlt.1] at hc
          exact hc.2
        have hn : n ∉ a.list .readyQueue := h.unlinked (hw.notReady hwaits) .readyQueue
        have hmod : ((a.wakeAll .sjf waits wake n).modify n wake).Shortest rank :=
          hsorted.congr rfl fun q _ => est_modify _ n q he
        refine ⟨hmod.enqueue fun q hq => ?_, fun q hq => ?_⟩
        · rcases hmem q hq with hold | hlt
          · exact hr.old q hold n hn
          · by_cases hq' : q ∈ a.list .readyQueue
            · exact hr.old q hq' n hn
            · exact hr.new q hq' n hn hlt
        · rcases (mem_list_enqueue _ _ _ _ _).mp hq with hq | ⟨rfl, _⟩
          · exact (hmem q hq).imp_right Nat.lt_succ_of_lt
          · exact .inr (Nat.lt_succ_self q)
      next => exact ⟨hsorted, fun q hq => (hmem q hq).imp_right Nat.lt_succ_of_lt⟩

/-! ## Operations -/

/-- The part of `op` in front of its decision leads from `a` to `b`. -/
structure Fed (rank : Pid → ℕ ×ₗ ℕ) (op : Op) (a b : Sched) : Prop where
  est : ∀ p < a.nProcesses, b.est p =
    if p = a.currentProcess ∧ a.folds op = true then a.average else a.est p
  child : ∀ p < b.nProcesses, a.nProcesses ≤ p → b.est p = a.est a.currentProcess
  shortest : b.Shortest rank

/-- An operation that folds no burst and creates no process. -/
theorem Fed.of_est (hf : a.folds op = false) (hn : b.nProcesses = a.nProcesses)
    (he : ∀ p, b.est p = a.est p) (hs : b.Shortest rank) : Fed rank op a b where
  est p _ := by
    rw [if_neg fun hc => Bool.false_ne_true (hf.symm.trans hc.2)]
    exact he p
  child p hp hle := absurd hp (Nat.not_lt.mpr (hn ▸ hle))
  shortest := hs

/-- An operation that leaves the lists alone too. -/
theorem Shortest.fed (h : a.Shortest rank) (hf : a.folds op = false)
    (hn : b.nProcesses = a.nProcesses) (hl : b.list = a.list) (he : ∀ p, b.est p = a.est p) :
    Fed rank op a b := .of_est hf hn he (h.congr hl fun p _ => he p)

theorem Law.fed_wakeAll (h : a.Law) {waits : Proc → Bool} {wake : Proc → Proc}
    (hw : Waker waits wake) (he : ∀ b, (wake b).estBurst = b.estBurst) (hs : a.Shortest rank)
    (hr : Fresh rank (a.list .readyQueue)) (hf : a.folds op = false) (n : Nat) :
    Fed rank op a (a.wakeAll .sjf waits wake n) :=
  .of_est hf (congrArg Globals.nProcesses (toGlobals_wakeAll .sjf h hw n))
    (h.est_wakeAll .sjf hw he n) (h.shortest_wakeAll hw he hs hr n).1

/-- An operation that ends the burst of the current process. -/
theorem Fed.closeBurst (hf : a.folds op = true) (hi : a.currentProcess ≠ initProcess)
    (hg : b.toGlobals = a.toGlobals) (he : ∀ p, b.est p = a.est p)
    (hburst : b.current.burstTicks = a.current.burstTicks)
    (hstate : b.current.state ≠ .running ∧ b.current.state ≠ .ready)
    (hu : b.Unlinked b.currentProcess) (hs : b.Shortest rank) : Fed rank op a b.closeBurst := by
  have hcur : b.currentProcess = a.currentProcess := congrArg Globals.currentProcess hg
  have haverage : b.average = a.average := by
    have hest : b.current.estBurst = a.current.estBurst := by
      rw [current, hcur]
      exact he a.currentProcess
    rw [average, average, hburst, hest]
  have hclose := est_closeBurst (hcur ▸ hi) hstate.1 hstate.2
  rw [haverage, hcur] at hclose
  have hn : b.closeBurst.nProcesses = a.nProcesses := by
    rw [← congrArg Globals.nProcesses hg, toGlobals_closeBurst]
  refine ⟨fun p _ => ?_, fun p hp hle => absurd hp (Nat.not_lt.mpr (hn ▸ hle)), ?_⟩
  · rw [hclose, he]
    exact if_congr ⟨fun h => ⟨h, hf⟩, And.left⟩ rfl rfl
  · refine hs.congr b.list_closeBurst fun p hp => ?_
    rw [hclose, if_neg]
    rintro rfl
    exact hu .readyQueue (hcur.symm ▸ hp)

theorem Law.fed_copyProcess (h : a.Law) (hs : a.Shortest rank)
    (hr : Fresh rank (a.list .readyQueue)) (page : Bool) :
    Fed rank (.copyProcess page) a (a.copyProcess .sjf page) := by
  have hdis := a.est_preemptDisable
  have hsdis : a.preemptDisable.Shortest rank := hs.congr rfl fun p _ => hdis p
  unfold copyProcess
  dsimp only
  split
  next => exact .of_est rfl rfl hdis hsdis
  next =>
    have henroll : ∀ p, (a.preemptDisable.enroll .sjf a.preemptDisable.child).est p =
        if p = a.nProcesses then a.est a.currentProcess else a.est p := by
      intro p
      have hproc : (a.preemptDisable.enroll .sjf a.preemptDisable.child).proc p =
          if p = a.nProcesses then a.preemptDisable.child else a.preemptDisable.proc p :=
        proc_enroll .sjf _ p
      rw [est, hproc, apply_ite Proc.estBurst]
      exact if_congr Iff.rfl (hdis a.currentProcess) (hdis p)
    have hu : a.nProcesses ∉ a.list .readyQueue := h.unlinked_of_le le_rfl .readyQueue
    have hsenroll : (a.preemptDisable.enroll .sjf a.preemptDisable.child).Shortest rank := by
      refine hsdis.congr rfl fun p hp => ?_
      rw [henroll, if_neg, hdis]
      rintro rfl
      exact hu hp
    have hreg : (a.preemptDisable.register .sjf).Shortest rank :=
      hsenroll.enqueue fun q hq => hr.old q hq a.nProcesses hu
    have hest : ∀ p, (a.preemptDisable.register .sjf).preemptEnable.est p =
        if p = a.nProcesses then a.est a.currentProcess else a.est p := by
      intro p
      rw [est_preemptEnable, register, est_enqueue, henroll]
    have hn : (a.preemptDisable.register .sjf).preemptEnable.nProcesses = a.nProcesses + 1 := by
      change (a.preemptDisable.register .sjf).nProcesses = _
      rw [register, toGlobals_enqueue]
      rfl
    refine ⟨fun p hp => ?_, fun p hp hle => ?_, hreg.congr rfl fun p _ => est_preemptEnable _ p⟩
    · rw [hest, if_neg (Nat.ne_of_lt hp), if_neg fun hc => Bool.false_ne_true hc.2]
    · rw [hn] at hp
      rw [hest, if_pos (Nat.le_antisymm (Nat.lt_succ_iff.mp hp) hle)]

/-- The loop of `exit_process` does not wake the process that dies. -/
theorem Law.proc_retired (h : a.preemptDisable.die.Law) (alg : Algorithm) (n : Nat) :
    (a.preemptDisable.die.wakeAll alg (Proc.waitsFor a.currentProcess) Proc.endWait n).proc
        a.currentProcess =
      { a.current with state := .zombie, preemptDisabled := a.current.preemptDisabled + 1 } := by
  have hdie : a.preemptDisable.die.proc a.currentProcess =
      { a.current with state := .zombie, preemptDisabled := a.current.preemptDisabled + 1 } := by
    rw [proc_dying, if_pos rfl]
    rfl
  rw [proc_wakeAll alg h (waker_waitsFor _), if_neg]
  · exact hdie
  · rintro ⟨_, _, hwaits⟩
    rw [hdie] at hwaits
    exact absurd hwaits (by simp [Proc.waitsFor])

theorem Law.fed_retireCurrent (h : a.Law) (hc : a.Current) (hi : a.currentProcess ≠ initProcess)
    (hs : a.Shortest rank) (hr : Fresh rank (a.list .readyQueue)) :
    Fed rank .exit a (a.retireCurrent .sjf).closeBurst := by
  have hdie := h.dying hc
  have hestDie : ∀ p, a.preemptDisable.die.est p = a.est p := fun p =>
    (est_die _ p).trans (a.est_preemptDisable p)
  have hw := waker_waitsFor a.currentProcess
  have hsorted := (hdie.shortest_wakeAll hw (fun _ => rfl) (hs.congr rfl fun p _ => hestDie p) hr
    maxProcesses).1
  have hest := fun p => (hdie.est_wakeAll .sjf hw (fun _ => rfl) maxProcesses p).trans (hestDie p)
  have hglob := toGlobals_wakeAll .sjf hdie hw maxProcesses
  have hproc := hdie.proc_retired .sjf maxProcesses
  have hlaw := hdie.wakeAll .sjf hw maxProcesses
  unfold retireCurrent
  dsimp only
  have hcur : a.preemptDisable.die.currentProcess = a.currentProcess := rfl
  rw [hcur]
  generalize a.preemptDisable.die.wakeAll .sjf (Proc.waitsFor a.currentProcess) Proc.endWait
    maxProcesses = w at hsorted hest hglob hproc hlaw ⊢
  have hwcur : w.currentProcess = a.currentProcess := congrArg Globals.currentProcess hglob
  have hcurrent : w.preemptEnable.current =
      { a.current with state := .zombie, preemptDisabled := a.current.preemptDisabled + 1 - 1 } := by
    rw [current, preemptEnable, toGlobals_modify, proc_modify, if_pos rfl, hwcur, hproc]
  refine .closeBurst rfl hi hglob (fun p => (est_preemptEnable w p).trans (hest p)) ?_ ?_ ?_
    (hsorted.congr rfl fun p _ => est_preemptEnable w p)
  · rw [hcurrent]
  · rw [hcurrent]
    exact ⟨by simp, by simp⟩
  · refine hlaw.unlinked ?_
    rw [preemptEnable, toGlobals_modify, hwcur, hproc]
    simp

/-- Up to its decision an operation keeps the queue in order. -/
theorem Law.fed_before (h : a.Law) (hc : a.Current) (hop : op.Enabled a.toGlobals)
    (hs : a.Shortest rank) (hr : Fresh rank (a.list .readyQueue)) :
    Fed rank op a (a.before .sjf op) := by
  cases op with
  | timerTick =>
      have htick : ∀ p, (a.accountTick .sjf).est p = a.est p := fun p =>
        est_modify a _ p fun _ => rfl
      simp only [before]
      split
      next => exact hs.fed rfl rfl rfl fun p => (est_setCounter _ _ p 0).trans (htick p)
      next => exact hs.fed rfl rfl rfl htick
  | uartIrq mis fifo =>
      rw [before]
      rcases h.handleUartIrq_cases .sjf mis fifo with he | he
      · rw [he]
        exact hs.fed rfl rfl rfl fun _ => rfl
      · rw [he]
        exact h.fed_wakeAll (waker_state _ rfl) (fun _ => rfl) hs hr rfl _
  | yield =>
      have hset := fun p => est_setCounter a a.currentProcess p 0
      have hrun : (a.setCounter a.currentProcess 0).current.state = .running :=
        (state_setCounter a a.currentProcess a.currentProcess 0).trans (hc.running hop)
      refine hs.fed rfl ?_ (list_closeBurst _) fun p => ?_
      · exact congrArg Globals.nProcesses (toGlobals_closeBurst _)
      · exact (est_closeBurst_running hrun p).trans (hset p)
  | block why =>
      have hest : ∀ p, (a.block why).est p = a.est p := fun p => est_modify a _ p fun _ => rfl
      have hlaw : (a.block why).Law := h.givenUp hc (.block why)
      have hstate : (a.block why).current.state = why.state := by
        rw [current, block, proc_modify, toGlobals_modify, if_pos rfl]
      have hne : why.state ≠ .running ∧ why.state ≠ .ready := by
        cases why <;> simp [Blocking.state]
      refine .closeBurst rfl hop rfl hest ?_ (by rw [hstate]; exact hne)
        (hlaw.unlinked (by rw [← current, hstate]; exact hne.2)) (hs.congr rfl fun p _ => hest p)
      exact field_modify a _ _ _ Proc.burstTicks fun _ => rfl
  | wait pid =>
      simp only [before]
      split
      next hb =>
        have hest : ∀ p, (a.waitFor pid).est p = a.est p := fun p => est_modify a _ p fun _ => rfl
        have hlaw : (a.waitFor pid).Law := by
          have hup := h.givenUp hc (.wait pid)
          rwa [Sched.givenUp, if_pos hb] at hup
        have hstate : (a.waitFor pid).current.state = .waitingAnotherProcess := by
          rw [current, waitFor, proc_modify, toGlobals_modify, if_pos rfl]
        refine .closeBurst hb hop rfl hest ?_ (by rw [hstate]; simp)
          (hlaw.unlinked (by rw [← current, hstate]; simp)) (hs.congr rfl fun p _ => hest p)
        exact field_modify a _ _ _ Proc.burstTicks fun _ => rfl
      next hb => exact hs.fed (Bool.not_eq_true _ ▸ hb) rfl rfl fun _ => rfl
  | exit => exact h.fed_retireCurrent hc hop hs hr
  | copyProcess page => exact h.fed_copyProcess hs hr page
  | wakeReceiver p =>
      simp only [before, wakeReceiver]
      split
      next hw =>
        have hp : p ∉ a.list .readyQueue := h.unlinked (by rw [hw]; simp) .readyQueue
        have hmod : ∀ q, (a.modify p Proc.makeReady).est q = a.est q := fun q =>
          est_modify a p q fun _ => rfl
        have hest : ∀ q, ((a.modify p Proc.makeReady).enqueue .sjf p).est q = a.est q := fun q =>
          (est_enqueue .sjf _ p q).trans (hmod q)
        refine .of_est rfl (congrArg Globals.nProcesses (toGlobals_enqueue _ _ _)) hest ?_
        have hready : (a.modify p Proc.makeReady).Shortest rank := hs.congr rfl fun q _ => hmod q
        exact hready.enqueue fun q hq => hr.old q hq p hp
      next => exact hs.fed rfl rfl rfl fun _ => rfl
  | wakeSenders => exact h.fed_wakeAll (waker_state _ rfl) (fun _ => rfl) hs hr rfl _
  | sendSignal p k =>
      rw [before, sendSignal]
      exact hs.fed rfl rfl rfl fun q => est_modify a p q fun _ => rfl
  | setParam p param value =>
      simp only [before, schedSetParam]
      have hid : Fed rank (.setParam p param value) a a := hs.fed rfl rfl rfl fun _ => rfl
      split
      next => exact hid
      next =>
        split
        next =>
          split
          next => exact hid
          next => exact hs.fed rfl rfl rfl fun q => est_modify a p q fun _ => rfl
        next =>
          split
          next =>
            split
            next => exact hid
            next => exact hs.fed rfl rfl rfl fun q => est_modify a p q fun _ => rfl
          next =>
            split
            next =>
              have hlevel : ∀ q, (a.modify p fun b =>
                  { b with queuePriority := clampLevel .sjf value }).est q = a.est q := fun q =>
                est_modify a p q fun _ => rfl
              split
              next => exact hid
              next => exact hs.fed rfl rfl rfl hlevel
            next => exact hid

/-! ## Decisions -/

theorem est_contest (alg : Algorithm) (a : Sched) (p : Pid) : (a.contest alg).est p = a.est p :=
  field_contest a alg p Proc.estBurst (fun _ _ => rfl) fun _ _ => rfl

theorem est_dispatch (a : Sched) (c : Choice) (p : Pid) : (a.dispatch c).est p = a.est p := by
  rw [est, field_dispatch a c p Proc.estBurst (fun _ _ => rfl) fun _ _ => rfl, proc_commit]
  dsimp only
  split
  next => exact Proc.field_handled _ Proc.estBurst (fun _ _ => rfl) fun _ _ => rfl
  next => rfl

/-- A process that keeps the CPU until a decision yields it. -/
theorem Law.yield_of_running (h : a.Law) (hc : a.Current) (hop : op.Enabled a.toGlobals)
    (hi : a.currentProcess ≠ initProcess) (hd : a.decides .sjf op = true)
    (hrun : ((a.before .sjf op).proc a.currentProcess).state = .running) : op = .yield := by
  rw [h.state_before hc hop hi] at hrun
  cases op with
  | yield => rfl
  | block why =>
      rw [Sched.givenUp, block, proc_modify, if_pos rfl] at hrun
      cases why <;> exact absurd hrun (by simp [Blocking.state])
  | wait pid =>
      have hb : a.blocksOn pid = true := hd
      rw [Sched.givenUp, if_pos hb, waitFor, proc_modify, if_pos rfl] at hrun
      exact absurd hrun (by simp)
  | exit =>
      rw [Sched.givenUp, die, proc_modify, if_pos rfl] at hrun
      exact absurd hrun (by simp)
  | timerTick => exact absurd hd (by simp [decides, Algorithm.isPreemptive])
  | _ => exact absurd hd (by simp [decides])

/-- The outgoing process goes behind its equals. -/
theorem Law.shortest_contest (h : a.Law) (hc : a.Current) (hop : op.Enabled a.toGlobals)
    (hr : Fresh rank (a.list .readyQueue)) (hd : a.decides .sjf op = true)
    (hf : Fed rank op a (a.before .sjf op)) : ((a.before .sjf op).contest .sjf).Shortest rank := by
  have hdis : (a.before .sjf op).preemptDisable.Shortest rank :=
    hf.shortest.congr rfl fun p _ => est_preemptDisable _ p
  unfold Sched.contest requeueCurrent
  split
  next hrunning =>
    have hcur : (a.before .sjf op).currentProcess = a.currentProcess := by
      rw [(h.calm_before .sjf hc hop).currentProcess, toGlobals_givenUp]
    have hi : a.currentProcess ≠ initProcess := hcur ▸ hrunning.1
    have hstate := hrunning.2
    rw [current, state_preemptDisable] at hstate
    change ((a.before .sjf op).proc (a.before .sjf op).currentProcess).state = _ at hstate
    rw [hcur] at hstate
    obtain rfl := h.yield_of_running hc hop hi hd hstate
    refine hdis.enqueue fun q hq => ?_
    have hlist : (a.before .sjf .yield).preemptDisable.list = a.list := list_closeBurst _
    rw [hlist] at hq
    change rank q < rank (a.before .sjf .yield).currentProcess
    rw [hcur]
    exact hr.old q hq _ (h.unlinked_current hc.outgoing .readyQueue)
  next => exact hdis

theorem Shortest.dispatch (h : a.Shortest rank) (c : Choice) : (a.dispatch c).Shortest rank := by
  have hest : (a.dispatch c).est = a.est := funext (est_dispatch a c)
  rw [Shortest, hest]
  exact h.sublist List.filter_sublist

/-- The order and the estimates after an operation. -/
theorem Law.fed_step (h : a.Law) (hc : a.Current) (hop : op.Enabled a.toGlobals)
    (hs : a.Shortest rank) (hr : Fresh rank (a.list .readyQueue))
    (hb : a.step .sjf op = some b) : Fed rank op a b := by
  have hf := h.fed_before hc hop hs hr
  rcases h.step_cases hc hop hb with ⟨hd, c, hdec⟩ | ⟨_, rfl⟩
  · have hest : ∀ p, b.est p = (a.before .sjf op).est p := fun p => by
      rw [hdec.result, est_dispatch, est_contest]
    refine ⟨fun p hp => (hest p).trans (hf.est p hp), fun p hp hle => ?_, ?_⟩
    · rw [hdec.nProcesses] at hp
      exact (hest p).trans (hf.child p hp hle)
    · rw [hdec.result]
      exact (h.shortest_contest hc hop hr hd hf).dispatch c
  · exact hf

/-- Nobody is in the queue afterwards who was not in it or has come in. -/
theorem Fed.est_queued (h : a.Law) (hc : a.Current) (hf : Fed rank op a b)
    (hp : p ∈ a.list .readyQueue) : b.est p = a.est p := by
  rw [hf.est p (h.queued .readyQueue p hp).2.1, if_neg]
  rintro ⟨rfl, _⟩
  exact h.unlinked_current hc.outgoing .readyQueue hp

/-! ## Bounds -/

/-- The estimates and measurements are not negative, and the estimates at most `m`. -/
structure Bounded (m : Int) (a : Sched) : Prop where
  est : ∀ p < a.nProcesses, 0 ≤ a.est p ∧ a.est p ≤ m
  burst : ∀ p < a.nProcesses, 0 ≤ (a.proc p).burstTicks

theorem burst_prim {alg : Algorithm} (h : ∀ p < a.nProcesses, 0 ≤ (a.proc p).burstTicks)
    (hb : Prim alg op a b) : ∀ p < b.nProcesses, 0 ≤ (b.proc p).burstTicks := by
  refine hb.forall_proc (P := fun r => 0 ≤ r.burstTicks) h (fun p r r' hw hold => ?_)
    fun _ => Int.le_refl 0
  cases hw with
  | tick => exact Int.add_nonneg hold Int.one_nonneg
  | burst => exact Int.le_refl 0
  | _ => exact hold

theorem burst_dispatch (c : Choice) (h : ∀ p < a.nProcesses, 0 ≤ (a.proc p).burstTicks) :
    ∀ p < (a.dispatch c).nProcesses, 0 ≤ ((a.dispatch c).proc p).burstTicks := by
  intro p hp
  rw [field_dispatch a c p Proc.burstTicks (fun _ _ => rfl) fun _ _ => rfl, proc_commit]
  dsimp only
  split
  next =>
    rw [Proc.field_handled _ Proc.burstTicks (fun _ _ => rfl) fun _ _ => rfl]
    exact h p hp
  next => exact h p hp

/-- An average is between its values. -/
theorem tdiv_bounds {x y m : Int} (hx : 0 ≤ x) (hy : 0 ≤ y) (hm : y ≤ m) :
    0 ≤ (x + y).tdiv 2 ∧ (x + y).tdiv 2 ≤ max m x := by
  rw [Int.tdiv_eq_ediv_of_nonneg (Int.add_nonneg hx hy)]
  omega

theorem Law.bounded_step {m : Int} (h : a.Law) (hc : a.Current) (hop : op.Enabled a.toGlobals)
    (hs : a.Shortest rank) (hr : Fresh rank (a.list .readyQueue)) (hm : a.Bounded m)
    (hb : a.step .sjf op = some b) :
    b.Bounded (if a.folds op then max m a.current.burstTicks else m) := by
  have hf := h.fed_step hc hop hs hr hb
  have hle : m ≤ if a.folds op then max m a.current.burstTicks else m := by
    split
    next => exact le_max_left _ _
    next => exact le_rfl
  have hcur := hm.est a.currentProcess hc.registered
  refine ⟨fun p hp => ?_, ?_⟩
  · by_cases hlt : p < a.nProcesses
    · rw [hf.est p hlt]
      split
      next hfold =>
        rw [if_pos hfold.2]
        exact tdiv_bounds (hm.burst _ hc.registered) hcur.1 hcur.2
      next => exact ⟨(hm.est p hlt).1, (hm.est p hlt).2.trans hle⟩
    · rw [hf.child p hp (Nat.not_lt.mp hlt)]
      exact ⟨hcur.1, hcur.2.trans hle⟩
  · exact h.prim_invariant (I := fun a => ∀ p < a.nProcesses, 0 ≤ (a.proc p).burstTicks) hc hop
      (fun _ _ => burst_prim) (fun _ c _ _ => burst_dispatch c) hb hm.burst

end Sched

/-! ## Insertion in the code -/

namespace KState

/-- Every queue is well formed and no two share a process. -/
structure Linked (s : KState) : Prop where
  wellFormed : ∀ l, s.WellFormed l
  apart : ∀ l l' p, p ∈ s.contents l → p ∈ s.contents l' → l = l'

theorem Linked.refines {s : KState} (h : s.Linked) : Refines s s.abstract where
  globals := rfl
  proc _ := rfl
  holds l := ⟨(h.wellFormed l).path, (h.wellFormed l).last⟩
  apart := h.apart

/-- The ready queue is sorted by the estimates. -/
def Ascending (s : KState) : Prop :=
  (s.contents .readyQueue).Pairwise fun p q => (s.pcb p).estBurst ≤ (s.pcb q).estBurst

end KState

/-- `p` has gone into the ready queue, behind everybody of a smaller or equal estimate and
in front of everybody else. -/
structure Inserted (p : Pid) (s t : KState) : Prop where
  wellFormed : t.WellFormed .readyQueue
  split : ∃ us vs, s.contents .readyQueue = us ++ vs ∧
    t.contents .readyQueue = us ++ p :: vs ∧
    (∀ u ∈ us, (s.pcb u).estBurst ≤ (s.pcb p).estBurst) ∧
    ∀ v ∈ vs, (s.pcb p).estBurst < (s.pcb v).estBurst

theorem KState.Linked.inserted {s : KState} {p : Pid} (h : s.Linked) (hi : p ≠ initProcess)
    (hp : ∀ l, p ∉ s.contents l) (hlen : (s.contents .readyQueue).length < maxProcesses)
    (hs : s.Ascending) : Inserted p s (enqueueSortedTo s .readyQueue p) := by
  have href := h.refines.enqueueSortedTo .readyQueue hi hp hlen.le
  have hholds := href.holds .readyQueue
  rw [Sched.list_setList, if_pos rfl] at hholds
  obtain ⟨us, vs, hsplit, hins, hus, hhead⟩ :=
    insert_split s.abstract.est p (s.contents .readyQueue)
  have hlist : Sched.insertSorted s.abstract.est p (s.abstract.list .readyQueue) =
      us ++ p :: vs := hins
  rw [hlist] at hholds
  have hcontents : (enqueueSortedTo s .readyQueue p).contents .readyQueue = us ++ p :: vs := by
    refine hholds.walk_eq ?_
    rw [hsplit, List.length_append] at hlen
    rw [List.length_append, List.length_cons]
    exact hlen
  have hvs : vs.Pairwise fun u v => s.abstract.est u ≤ s.abstract.est v := by
    have hsorted : (us ++ vs).Pairwise fun u v => s.abstract.est u ≤ s.abstract.est v :=
      hsplit ▸ hs
    exact (List.pairwise_append.mp hsorted).2.1
  refine ⟨⟨?_, ?_, ?_, ?_⟩, us, vs, hsplit, hcontents, hus, lt_of_head hvs hhead⟩
  · rw [hholds.head_eq_none, hholds.tail_eq_none]
  · rw [hcontents]; exact hholds.seg
  · rw [hcontents]; exact hholds.tail
  · rw [hcontents]; exact hholds.nodup

/-! ## Runs -/

/-- Does the operation end the burst of the current process? -/
def foldsBurst (s : KState) : Op → Bool
  | .block _ | .exit => true
  | .wait pid => blocksOn s pid
  | _ => false

/-- The past of a run: the number of the next operation, that of the operation in which
each queued process was inserted, and the largest estimate at the start or burst folded in
since. -/
structure Past where
  now : Nat
  arrival : Pid → Nat
  peak : Int

namespace Past

/-- The order of the insertions: within an operation they are in the order of the slots. -/
def rank (past : Past) (p : Pid) : ℕ ×ₗ ℕ := toLex (past.arrival p, p)

/-- A run starts with the queue in the order in which it stands. -/
def start (s : KState) : Past where
  now := (s.contents .readyQueue).length
  arrival p := (s.contents .readyQueue).idxOf p
  peak := ((List.range s.nProcesses).map fun p : Nat => (s.pcb p).estBurst).foldr max 0

/-- One operation later. -/
def record (past : Past) (s : KState) (op : Op) : Past where
  now := past.now + 1
  arrival p := if p ∈ s.contents .readyQueue then past.arrival p else past.now
  peak := if foldsBurst s op then max past.peak s.current.burstTicks else past.peak

end Past

/-- The runs from `s₀`, with their pasts. -/
inductive SjfRun (s₀ : KState) : KState → Past → Prop
  | start : SjfRun s₀ s₀ (.start s₀)
  | step {s t : KState} {past : Past} {op : Op} : SjfRun s₀ s past → op.Enabled s.toGlobals →
      step .sjf s op = some t → SjfRun s₀ t (past.record s op)

/-- The ready queue is sorted by the estimates, and by insertion among equals. -/
def KState.Shortest (s : KState) (past : Past) : Prop :=
  (s.contents .readyQueue).Pairwise (Ahead (fun p => (s.pcb p).estBurst) past.rank)

/-- The state in which an operation makes its decision. -/
def contested (s : KState) (op : Op) : KState :=
  requeueCurrent enqueueSjf (preemptDisable (before .sjf s op))

/-- The decision from the queue of `k` to `t`. -/
inductive FirstRuns (k t : KState) : Prop
  | idle : t.currentProcess = initProcess → (∀ p ∈ k.contents .readyQueue, Barred k p) →
      FirstRuns k t
  | first (pre post : List Pid) : k.contents .readyQueue = pre ++ t.currentProcess :: post →
      ¬ Barred k t.currentProcess → (∀ p ∈ pre, Barred k p) → FirstRuns k t

/-! ## The code and the past -/

/-- The abstract state is in order, and what is queued was inserted in the past. -/
structure Past.Fits (past : Past) (a : Sched) : Prop where
  shortest : a.Shortest past.rank
  arrived : ∀ p ∈ a.list .readyQueue, past.arrival p < past.now

variable {s t : KState} {a b : Sched} {past : Past} {op : Op}

theorem Past.rank_lt {p q : Pid} : past.rank p < past.rank q ↔
    past.arrival p < past.arrival q ∨ past.arrival p = past.arrival q ∧ p < q :=
  Prod.Lex.toLex_lt_toLex

theorem Past.arrival_record {p : Pid} : (past.record s op).arrival p =
    if p ∈ s.contents .readyQueue then past.arrival p else past.now := rfl

namespace Past.Fits

theorem fresh (h : past.Fits a) (op : Op) (hc : s.contents .readyQueue = a.list .readyQueue) :
    Sched.Fresh (past.record s op).rank (a.list .readyQueue) where
  old p hp q hq := by
    rw [rank_lt, arrival_record, arrival_record, hc, if_pos hp, if_neg hq]
    exact .inl (h.arrived p hp)
  new p hp q hq hlt := by
    rw [rank_lt, arrival_record, arrival_record, hc, if_neg hp, if_neg hq]
    exact .inr ⟨rfl, hlt⟩

theorem record (h : past.Fits a) (op : Op) (hc : s.contents .readyQueue = a.list .readyQueue) :
    a.Shortest (past.record s op).rank := by
  refine pairwise_congr h.shortest (fun _ _ => rfl) fun p hp => ?_
  rw [rank, rank, arrival_record, hc, if_pos hp]

theorem step (h : past.Fits a) (hc : s.contents .readyQueue = a.list .readyQueue)
    (hb : b.Shortest (past.record s op).rank) : (past.record s op).Fits b where
  shortest := hb
  arrived p _ := by
    rw [arrival_record, hc]
    split
    next hp => exact Nat.lt_succ_of_lt (h.arrived p hp)
    next => exact Nat.lt_succ_self _

end Past.Fits

namespace Represents

theorem foldsBurst_eq (h : Represents s a) (op : Op) : foldsBurst s op = a.folds op := by
  cases op with
  | wait pid => exact h.refines.blocksOn h.law pid
  | _ => rfl

theorem shortest_iff (h : Represents s a) : s.Shortest past ↔ a.Shortest past.rank := by
  have hest : (fun p => (s.pcb p).estBurst) = a.est := funext fun p => h.refines.estBurst p
  rw [KState.Shortest, Sched.Shortest, hest, h.contents_eq]

end Represents

theorem Refines.firstRuns {c : Sched.Choice} (h : Refines s a) (hl : a.Lists)
    (hc : a.select .sjf = some c) (ht : t.currentProcess = c.target) : FirstRuns s t := by
  obtain rfl := Option.some.inj hc
  have hlist := h.contents_lists hl .readyQueue
  cases hn : (Sched.scan (fun p => (a.proc p).barred) (a.list .readyQueue)).2 with
  | none =>
      refine .idle ?_ fun p hp => ?_
      · rw [ht, Sched.Choice.target]
        change (Sched.scan _ _).2.getD initProcess = _
        rw [hn]
        rfl
      · rw [hlist] at hp
        exact h.barred_iff.mp (Sched.scan_idle hn hp)
  | some p =>
      have hp : t.currentProcess = p := by
        rw [ht, Sched.Choice.target]
        change (Sched.scan _ _).2.getD initProcess = _
        rw [hn]
        rfl
      obtain ⟨pre, post, hsplit, _, hpre, hbarred⟩ := Sched.scan_split hn
      refine .first pre post ?_ ?_ fun q hq => h.barred_iff.mp (hpre q hq)
      · rw [hlist, hp]
        exact hsplit
      · rw [hp, ← h.barred_iff, hbarred]
        exact Bool.false_ne_true

/-! ## Every run -/

/-- What holds of a state of a run and of the operations that it allows. -/
structure ShortestFirst (s : KState) (past : Past) : Prop where
  wellFormed : s.WellFormed .readyQueue
  sorted : s.Shortest past
  /-- The estimates of the queued processes are fixed. -/
  fixed : ∀ op t, op.Enabled s.toGlobals → step .sjf s op = some t →
    ∀ p ∈ s.contents .readyQueue, (t.pcb p).estBurst = (s.pcb p).estBurst
  first : ∀ op t, op.Enabled s.toGlobals → decides .sjf s op = true → step .sjf s op = some t →
    (contested s op).Shortest (past.record s op) ∧ FirstRuns (contested s op) t

theorem Represents.firstRuns (h : Represents s a) (hf : past.Fits a) :
    ShortestFirst s past where
  wellFormed := h.queueLaw.wellFormed .readyQueue
  sorted := h.shortest_iff.mpr hf.shortest
  fixed op t hop ht p hp := by
    have hop' : op.Enabled a.toGlobals := by rw [← h.refines.globals]; exact hop
    have hc := h.contents_eq .readyQueue
    obtain ⟨b, hb, hrep⟩ := h.step hop ht
    have hfed := h.law.fed_step h.current hop' (hf.record op hc) (hf.fresh op hc) hb
    rw [hrep.refines.estBurst, h.refines.estBurst]
    exact hfed.est_queued h.law h.current (hc ▸ hp)
  first op t hop hd ht := by
    have hop' : op.Enabled a.toGlobals := by rw [← h.refines.globals]; exact hop
    have hc := h.contents_eq .readyQueue
    have href := h.refines.before .sjf h.law h.current op
    have hlaw : (a.before .sjf op).Law := (h.law.calm_before .sjf h.current hop').law
    have hout : (a.before .sjf op).Outgoing := h.law.outgoing_before h.current hop'
    have hd' : a.decides .sjf op = true := by rw [← h.refines.decides .sjf h.law op]; exact hd
    have hcontest : Refines (contested s op) ((a.before .sjf op).contest .sjf) :=
      href.contest .sjf hlaw.lists
    have hlists := hlaw.lists.contest hout.registered .sjf
    have hfed := h.law.fed_before h.current hop' (hf.record op hc) (hf.fresh op hc)
    refine ⟨?_, ?_⟩
    · have hsorted := h.law.shortest_contest h.current hop' (hf.fresh op hc) hd' hfed
      have hest : (fun p => ((contested s op).pcb p).estBurst) =
          ((a.before .sjf op).contest .sjf).est := funext fun p => hcontest.estBurst p
      rw [KState.Shortest, hest, hcontest.contents_lists hlists]
      exact hsorted
    · rw [step_eq, if_pos hd] at ht
      have hpick := href.dispatches .sjf hlaw.lists hout.registered
      rw [ht] at hpick
      cases hpick with
      | some hdispatch =>
          exact hcontest.firstRuns hlists rfl hdispatch.currentProcess

/-- The past of a run fits its states, and bounds them if they start within bounds. -/
theorem SjfRun.fits {s₀ : KState} {B : Prop} (hrun : SjfRun s₀ s past)
    (h₀ : ∃ a, Represents s₀ a ∧ (Past.start s₀).Fits a ∧ (B → a.Bounded (Past.start s₀).peak)) :
    ∃ a, Represents s a ∧ past.Fits a ∧ (B → a.Bounded past.peak) := by
  induction hrun with
  | start => exact h₀
  | @step s t past op _ hop ht ih =>
      obtain ⟨a, ha, hf, hm⟩ := ih
      have hc := ha.contents_eq .readyQueue
      have hop' : op.Enabled a.toGlobals := by rw [← ha.refines.globals]; exact hop
      obtain ⟨b, hb, hrep⟩ := ha.step hop ht
      have hfed := ha.law.fed_step ha.current hop' (hf.record op hc) (hf.fresh op hc) hb
      refine ⟨b, hrep, hf.step hc hfed.shortest, fun hB => ?_⟩
      have hbounded := ha.law.bounded_step ha.current hop' (hf.record op hc) (hf.fresh op hc)
        (hm hB) hb
      rw [← ha.foldsBurst_eq, ← ha.refines.current] at hbounded
      exact hbounded

theorem le_foldr_max {x : Int} {xs : List Int} (h : x ∈ xs) : x ≤ xs.foldr max 0 := by
  induction xs with
  | nil => exact absurd h List.not_mem_nil
  | cons y ys ih =>
      rcases List.mem_cons.mp h with rfl | h
      · exact le_max_left _ _
      · exact (ih h).trans (le_max_right _ _)

theorem fits_start (hs : s.Ascending) (h : Represents s a) : (Past.start s).Fits a where
  shortest := by
    have hnodup := (h.queueLaw.wellFormed .readyQueue).nodup
    refine h.shortest_iff.mp ((hs.and (pairwise_idxOf hnodup)).imp fun {p q} hpq => ?_)
    rcases lt_or_eq_of_le hpq.1 with hlt | he
    · exact .inl hlt
    · exact .inr ⟨he, Past.rank_lt.mpr (.inl hpq.2)⟩
  arrived p hp := by
    rw [← h.contents_eq] at hp
    exact List.idxOf_lt_length_of_mem hp

theorem bounded_start (h : Represents s a) (hpos : ∀ p, s.processes p = some p →
    0 ≤ (s.pcb p).estBurst ∧ 0 ≤ (s.pcb p).burstTicks) : a.Bounded (Past.start s).peak where
  est p hp := by
    rw [← h.refines.estBurst]
    refine ⟨(hpos p (h.registered_iff.mpr hp)).1, le_foldr_max (List.mem_map.mpr ⟨p, ?_, rfl⟩)⟩
    rw [h.refines.nProcesses]
    exact List.mem_range.mpr hp
  burst p hp := by
    rw [← h.refines.proc]
    exact (hpos p (h.registered_iff.mpr hp)).2

/-- The order of SJF in every run, and what one insertion does. -/
theorem shortestFirst {s₀ : KState} (hlaw : s₀.QueueLaw)
    (hreg : s₀.processes s₀.currentProcess = some s₀.currentProcess)
    (hrun : s₀.currentProcess ≠ initProcess → s₀.current.state = .running)
    (hs : s₀.Ascending) :
    (∀ s p, s.Linked → s.Ascending → p ≠ initProcess → (∀ l, p ∉ s.contents l) →
      (s.contents .readyQueue).length < maxProcesses →
      Inserted p s (enqueueSortedTo s .readyQueue p)) ∧
    (∀ s past, SjfRun s₀ s past → ShortestFirst s past) ∧
    ((∀ p, s₀.processes p = some p → 0 ≤ (s₀.pcb p).estBurst ∧ 0 ≤ (s₀.pcb p).burstTicks) →
      ∀ s past, SjfRun s₀ s past → ∀ p, s.processes p = some p →
        0 ≤ (s.pcb p).estBurst ∧ (s.pcb p).estBurst ≤ past.peak) := by
  have hrep := hlaw.represents hreg hrun
  refine ⟨fun s p hl hasc hp hout hlen => hl.inserted hp hout hlen hasc, fun s past h => ?_,
    fun hpos s past h p hp => ?_⟩
  · obtain ⟨a, ha, hf, _⟩ := h.fits (B := False) ⟨_, hrep, fits_start hs hrep, False.elim⟩
    exact ha.firstRuns hf
  · obtain ⟨a, ha, _, hm⟩ := h.fits ⟨_, hrep, fits_start hs hrep, bounded_start hrep⟩
    rw [ha.refines.estBurst]
    exact (hm hpos).est p (ha.registered_iff.mp hp)

theorem sjfRun_runOps {s₀ s t : KState} {past : Past} {ops : List Op} (h : SjfRun s₀ s past)
    (hops : runOps .sjf ops s = some t) : ∃ past', SjfRun s₀ t past' := by
  induction ops generalizing s past with
  | nil => exact ⟨past, Option.some.inj hops ▸ h⟩
  | cons op ops ih =>
      obtain ⟨u, hu, hrest⟩ := Option.bind_eq_some_iff.mp hops
      obtain ⟨hop, hstep⟩ := Option.ite_none_right_eq_some.mp hu
      exact ih (h.step hop hstep) hrest

/-- A process that has run for some ticks blocks, and is woken behind a younger one. -/
theorem shortestFirst_woken : ∃ s₀ s past,
    afterBoot .roundRobin [.copyProcess true, .timerTick] = some s₀ ∧
    runOps .sjf [.copyProcess true, .timerTick, .timerTick, .timerTick, .block .receiveMessage,
      .copyProcess true, .wakeReceiver 1] s₀ = some s ∧
    SjfRun s₀ s past ∧ ShortestFirst s past ∧
    ∀ p, s.processes p = some p → 0 ≤ (s.pcb p).estBurst ∧ (s.pcb p).estBurst ≤ past.peak := by
  obtain ⟨s₀, hs₀, hreach, hreg, hrun, hnil, hpos, hsome⟩ := exists_afterBoot .roundRobin
    [.copyProcess true, .timerTick] (fun s =>
      s.processes s.currentProcess = some s.currentProcess ∧ s.current.state = .running ∧
      s.contents .readyQueue = [] ∧
      (∀ p < s.nProcesses, 0 ≤ (s.pcb p).estBurst ∧ 0 ≤ (s.pcb p).burstTicks) ∧
      (runOps .sjf [.copyProcess true, .timerTick, .timerTick, .timerTick, .block .receiveMessage,
        .copyProcess true, .wakeReceiver 1] s).isSome = true) (by decide +kernel)
  obtain ⟨s, hs⟩ := Option.isSome_iff_exists.mp hsome
  obtain ⟨past, hpast⟩ := sjfRun_runOps .start hs
  have hlaw := queueLaw_of_reachable hreach
  have hasc : s₀.Ascending := by
    rw [KState.Ascending, hnil]
    exact .nil
  obtain ⟨_, hfirst, hbound⟩ := shortestFirst hlaw hreg (fun _ => hrun) hasc
  refine ⟨s₀, s, past, hs₀, hs, hpast, hfirst s past hpast, hbound (fun p hp => ?_) s past hpast⟩
  exact hpos p (hlaw.table.registered_iff.mp hp)

end Demoos
