import Demoos.Scheduler.Law

/-!
# The part of an operation in front of its decision

An operation first lets the current process give up the CPU, if it is a call
that does so, and then works on the process table and the lists.  The second
part is calm: it keeps the law, it leaves the current process where it is, and
all it does to a process is to add signals or to make it ready if it was
blocked.  `Calm` says this once, for compositions of any length.
-/

namespace Demoos

open Function (update update_self update_of_ne)

/-! ## Calm changes -/

/-- What others do to a process: signals are added, and it may be woken. -/
structure Proc.Calm (b b' : Proc) : Prop where
  pending : ∀ k, b.pending k = true → b'.pending k = true
  state : b'.state = b.state ∧ b'.pidToWait = b.pidToWait ∨
    b.state.blocked = true ∧ b'.state = .ready

theorem Proc.Calm.refl (b : Proc) : b.Calm b := ⟨fun _ h => h, .inl ⟨rfl, rfl⟩⟩

theorem Proc.Calm.trans {b c d : Proc} (h : b.Calm c) (h' : c.Calm d) : b.Calm d := by
  refine ⟨fun k hk => h'.pending k (h.pending k hk), ?_⟩
  rcases h.state with ⟨hs, hp⟩ | ⟨hb, hs⟩ <;> rcases h'.state with ⟨hs', hp'⟩ | ⟨hb', hs'⟩
  · exact .inl ⟨hs'.trans hs, hp'.trans hp⟩
  · exact .inr ⟨hs ▸ hb', hs'⟩
  · exact .inr ⟨hb, hs'.trans hs⟩
  · rw [hs] at hb'
    exact absurd hb' (by decide)

namespace Sched

structure Calm (a b : Sched) : Prop where
  law : b.Law
  currentProcess : b.currentProcess = a.currentProcess
  nProcesses : a.nProcesses ≤ b.nProcesses
  proc : ∀ p, p < a.nProcesses → (a.proc p).Calm (b.proc p)
  fresh : ∀ p, a.nProcesses ≤ p → p < b.nProcesses → (b.proc p).state = .ready

variable {a b c : Sched} {p : Pid} (alg : Algorithm)

/-- A change that registers nobody. -/
theorem Calm.of_nProcesses (hlaw : b.Law) (hc : b.currentProcess = a.currentProcess)
    (hn : b.nProcesses = a.nProcesses) (hproc : ∀ p, (a.proc p).Calm (b.proc p)) : a.Calm b where
  law := hlaw
  currentProcess := hc
  nProcesses := hn.ge
  proc p _ := hproc p
  fresh _ hp hlt := absurd (hn ▸ hlt) (Nat.not_lt.mpr hp)

theorem Law.calm (h : a.Law) : a.Calm a := .of_nProcesses h rfl rfl fun _ => .refl _

theorem Calm.trans (h : a.Calm b) (h' : b.Calm c) : a.Calm c where
  law := h'.law
  currentProcess := h'.currentProcess.trans h.currentProcess
  nProcesses := h.nProcesses.trans h'.nProcesses
  proc p hp := (h.proc p hp).trans (h'.proc p (Nat.lt_of_lt_of_le hp h.nProcesses))
  fresh p hp hlt := by
    rcases Nat.lt_or_ge p b.nProcesses with hb | hb
    · have hready := h.fresh p hp hb
      rcases (h'.proc p hb).state with ⟨hs, _⟩ | ⟨_, hs⟩
      · exact hs.trans hready
      · exact hs
    · exact h'.fresh p hb hlt

/-- A write of globals other than the table and the current process. -/
theorem Law.calm_globals (h : a.Law) (hp : b.processes = a.processes)
    (hn : b.nProcesses = a.nProcesses) (hc : b.currentProcess = a.currentProcess)
    (hl : b.list = a.list) (hproc : b.proc = a.proc) : a.Calm b :=
  .of_nProcesses (h.congr hp hn hl fun p => by rw [hproc]) hc hn
    fun p => by rw [hproc]; exact .refl _

/-- A write of fields that neither the law nor the signals depend on. -/
theorem Law.calm_modify (h : a.Law) {f : Proc → Proc}
    (hs : (f (a.proc p)).state = (a.proc p).state)
    (hw : (f (a.proc p)).pidToWait = (a.proc p).pidToWait)
    (hk : ∀ k, (a.proc p).pending k = true → (f (a.proc p)).pending k = true) :
    a.Calm (a.modify p f) := by
  refine .of_nProcesses (h.modify hs) rfl rfl fun q => ?_
  rw [proc_modify]
  split
  next e => subst e; exact ⟨hk, .inl ⟨hs, hw⟩⟩
  next => exact .refl _

theorem Law.calm_setCounter (h : a.Law) (p : Pid) (n : Int) : a.Calm (a.setCounter p n) :=
  h.calm_modify rfl rfl fun _ hk => hk

theorem Law.calm_preemptEnable (h : a.Law) : a.Calm a.preemptEnable :=
  h.calm_modify rfl rfl fun _ hk => hk

theorem Law.calm_preemptDisable (h : a.Law) : a.Calm a.preemptDisable :=
  h.calm_modify rfl rfl fun _ hk => hk

theorem toGlobals_closeBurst (a : Sched) : a.closeBurst.toGlobals = a.toGlobals := by
  unfold closeBurst
  split <;> rfl

theorem Law.calm_closeBurst (h : a.Law) : a.Calm a.closeBurst := by
  unfold closeBurst
  split
  next =>
    have hb : a.Calm (a.modify a.currentProcess Proc.endBurst) :=
      h.calm_modify rfl rfl fun _ hk => hk
    exact hb.trans (hb.law.calm_setCounter _ _)
  next => exact h.calm_setCounter _ _

/-! ## Wake-ups -/

theorem Law.calm_wake (h : a.Law) {waits : Proc → Bool} {wake : Proc → Proc}
    (hw : Waker waits wake) (hb : waits (a.proc p) = true) (hlt : p < a.nProcesses) :
    a.Calm ((a.modify p wake).enqueue alg p) := by
  refine .of_nProcesses (h.wake alg (h.unlinked (hw.notReady hb)) hlt wake)
    (by rw [toGlobals_enqueue]; rfl) (by rw [toGlobals_enqueue]; rfl) fun q => ?_
  have hq : ((a.modify p wake).enqueue alg p).proc q = (a.modify p wake).proc q := by
    rw [proc_enqueue]
    split
    next e => rw [proc_modify, if_pos e.1, hw.makeReady]
    next => rfl
  rw [hq, proc_modify]
  split
  next e =>
    subst e
    refine ⟨fun k hk => ?_, .inr ⟨hw.blocked _ hb, hw.ready _⟩⟩
    rw [Proc.pending, hw.pendingSignals]
    exact hk
  next => exact .refl _

theorem Law.calm_wakeAll (h : a.Law) {waits : Proc → Bool} {wake : Proc → Proc}
    (hw : Waker waits wake) (n : Nat) : a.Calm (a.wakeAll alg waits wake n) := by
  induction n with
  | zero => exact h.calm
  | succ n ih =>
      rw [wakeAll_succ]
      refine ih.trans ?_
      rw [wakeSlot_eq alg ih.law]
      split
      next hc => exact ih.law.calm_wake alg hw hc.2 hc.1
      next => exact ih.law.calm

theorem Law.calm_wakeReceiver (h : a.Law) (hp : p < a.nProcesses) :
    a.Calm (a.wakeReceiver alg p) := by
  unfold wakeReceiver
  split
  next hs =>
    have hw := waker_state .waitingToReceiveMessage rfl
    exact h.calm_wake alg hw (by simp [hs]) hp
  next => exact h.calm

/-- A loop that finds nobody waiting does nothing. -/
theorem Law.wakeAll_idle (h : a.Law) {waits : Proc → Bool} {wake : Proc → Proc}
    (hnone : ∀ p < a.nProcesses, waits (a.proc p) = false) (n : Nat) :
    a.wakeAll alg waits wake n = a := by
  induction n with
  | zero => rfl
  | succ n ih =>
      rw [wakeAll_succ, ih, wakeSlot_eq alg h, if_neg]
      rintro ⟨hlt, hwaits⟩
      rw [hnone n hlt] at hwaits
      exact absurd hwaits Bool.false_ne_true

/-- The loop for the readers of the console. -/
def wakeReaders (a : Sched) : Sched :=
  a.wakeAll alg (·.state == .waitingUartInput) Proc.makeReady a.nProcesses

/-- The readers are woken by the first character without an error. -/
theorem Law.handleUartIrq_cases (h : a.Law) (mis : BitVec 32)
    (fifo : List (BitVec 32)) :
    a.handleUartIrq alg mis fifo = a ∨ a.handleUartIrq alg mis fifo = a.wakeReaders alg := by
  have hw := waker_state .waitingUartInput rfl
  have hlaw : (a.wakeReaders alg).Law := h.wakeAll alg hw _
  have hnone : ∀ p < (a.wakeReaders alg).nProcesses,
      (((a.wakeReaders alg).proc p).state == .waitingUartInput) = false := by
    intro p hp
    rw [wakeReaders, toGlobals_wakeAll alg h hw] at hp
    rw [wakeReaders, proc_wakeAll alg h hw]
    split
    next => rfl
    next hc => exact Bool.not_eq_true _ ▸ fun hs => hc ⟨hp, hp, hs⟩
  have hstay : ∀ dr, (a.wakeReaders alg).uartReceive alg dr = a.wakeReaders alg := by
    intro dr
    unfold uartReceive
    split
    next => exact hlaw.wakeAll_idle alg hnone _
    next => rfl
  have hstays : ∀ fifo : List (BitVec 32),
      fifo.foldl (uartReceive alg) (a.wakeReaders alg) = a.wakeReaders alg := by
    intro fifo
    induction fifo with
    | nil => rfl
    | cons dr fifo ih => rw [List.foldl_cons, hstay, ih]
  unfold handleUartIrq
  split
  next =>
    induction fifo with
    | nil => exact .inl rfl
    | cons dr fifo ih =>
        rw [List.foldl_cons]
        by_cases hc : (dr >>> 8) &&& 0xF#32 = 0#32
        · have hwoken : a.uartReceive alg dr = a.wakeReaders alg := if_pos hc
          rw [hwoken]
          exact .inr (hstays fifo)
        · have hskip : a.uartReceive alg dr = a := if_neg hc
          rw [hskip]
          exact ih
  next => exact .inl rfl

theorem Law.calm_handleUartIrq (h : a.Law) (mis : BitVec 32) (fifo : List (BitVec 32)) :
    a.Calm (a.handleUartIrq alg mis fifo) := by
  rcases h.handleUartIrq_cases alg mis fifo with he | he
  · rw [he]
    exact h.calm
  · rw [he]
    exact h.calm_wakeAll alg (waker_state _ rfl) _

/-! ## Timer tick -/

theorem mem_byLevel {policy : MultilevelPolicy} :
    p ∈ a.byLevel policy ↔ ∃ q ∈ policy.levels, p ∈ a.list (.mlQueues q) := by
  simp [byLevel]

theorem Law.nodup_byLevel (h : a.Law) (policy : MultilevelPolicy) : (a.byLevel policy).Nodup := by
  rw [byLevel, List.nodup_flatMap]
  refine ⟨fun q _ => h.nodup _, ?_⟩
  have hlevels : policy.levels.Nodup :=
    List.nodup_range.map fun _ _ he => Int.ofNat.inj he
  refine hlevels.imp fun hne => ?_
  intro p hp hp'
  exact hne (ReadyList.mlQueues.inj (h.apart _ _ p hp hp'))

/-- The list a process of the list `l` is in after the boost. -/
def boosted (policy : MultilevelPolicy) : ReadyList → ReadyList
  | .readyQueue => .readyQueue
  | .mlQueues q => if q ∈ policy.levels then .mlQueues 0 else .mlQueues q

theorem mem_boost {policy : MultilevelPolicy} (h0 : 0 ∈ policy.levels) {l : ReadyList} :
    p ∈ (a.boost policy).list l ↔ ∃ l', p ∈ a.list l' ∧ boosted policy l' = l := by
  constructor
  · intro hp
    cases l with
    | readyQueue => exact ⟨.readyQueue, hp, rfl⟩
    | mlQueues q =>
        simp only [boost] at hp
        split at hp
        next e =>
          obtain ⟨m, hm, hpm⟩ := mem_byLevel.mp hp
          exact ⟨.mlQueues m, hpm, by rw [boosted, if_pos hm, e]⟩
        next =>
          split at hp
          next => exact absurd hp List.not_mem_nil
          next hq => exact ⟨.mlQueues q, hp, by rw [boosted, if_neg hq]⟩
  · rintro ⟨l', hp, rfl⟩
    cases l' with
    | readyQueue => exact hp
    | mlQueues q =>
        rw [boosted]
        split
        next hq => exact mem_byLevel.mpr ⟨q, hq, hp⟩
        next hq =>
          have hne : q ≠ 0 := fun e => hq (e ▸ h0)
          simp only [boost, if_neg hne, if_neg hq]
          exact hp

theorem Law.boost (h : a.Law) {policy : MultilevelPolicy} (h0 : 0 ∈ policy.levels) :
    (a.boost policy).Law where
  initRegistered := h.initRegistered
  bound := h.bound
  table := h.table
  nodup l := by
    cases l with
    | readyQueue => exact h.nodup _
    | mlQueues q =>
        simp only [Sched.boost]
        split
        next => exact h.nodup_byLevel policy
        next =>
          split
          next => exact List.nodup_nil
          next => exact h.nodup _
  apart l l' p hp hp' := by
    obtain ⟨m, hm, rfl⟩ := (mem_boost h0).mp hp
    obtain ⟨m', hm', rfl⟩ := (mem_boost h0).mp hp'
    rw [h.apart m m' p hm hm']
  queued l p hp := by
    obtain ⟨m, hm, _⟩ := (mem_boost h0).mp hp
    exact h.queued m p hm
  linked p hi hlt hs := by
    obtain ⟨m, hm⟩ := h.linked p hi hlt hs
    exact ⟨_, (mem_boost h0).mpr ⟨m, hm, rfl⟩⟩

theorem Law.calm_boost (h : a.Law) {policy : MultilevelPolicy} (h0 : 0 ∈ policy.levels) :
    a.Calm (a.boost policy) :=
  .of_nProcesses (h.boost h0) rfl rfl fun _ => .refl _

theorem zero_mem_levels {policy : MultilevelPolicy} (hp : alg.mlPolicy = some policy) :
    0 ∈ policy.levels := by
  cases alg with
  | mlq => rw [← Option.some.inj hp]; decide
  | mlfq => rw [← Option.some.inj hp]; decide
  | _ => exact absurd hp (by simp [Algorithm.mlPolicy])

theorem Law.calm_boostIfDue (h : a.Law) {policy : MultilevelPolicy} (h0 : 0 ∈ policy.levels) :
    a.Calm (a.boostIfDue policy) := by
  have hcount : a.Calm { a with mlTicksSinceBoost := a.mlTicksSinceBoost + 1 } :=
    h.calm_globals rfl rfl rfl rfl rfl
  unfold boostIfDue
  split
  next =>
    dsimp only
    split
    next => exact hcount.trans (hcount.law.calm_boost h0)
    next => exact hcount
  next => exact h.calm

theorem Law.calm_demoteIfExpired (h : a.Law) (policy : MultilevelPolicy) :
    a.Calm (a.demoteIfExpired policy) := by
  unfold demoteIfExpired
  split
  next => exact h.calm_globals rfl rfl rfl rfl rfl
  next => exact h.calm

theorem Law.calm_multilevelOnTick (h : a.Law) {policy : MultilevelPolicy}
    (h0 : 0 ∈ policy.levels) : a.Calm (a.multilevelOnTick policy) := by
  have hboost := h.calm_boostIfDue h0
  exact hboost.trans (hboost.law.calm_demoteIfExpired policy)

/-- The bookkeeping of a tick writes one process, and leaves it current. -/
theorem accountTick_frame (alg : Algorithm) (a : Sched) :
    (a.accountTick alg).proc = (a.modify a.currentProcess Proc.tick).proc ∧
      (a.accountTick alg).currentProcess = a.currentProcess := by
  unfold accountTick onTick
  cases alg.mlPolicy with
  | none => exact ⟨rfl, rfl⟩
  | some policy =>
      simp only [multilevelOnTick, demoteIfExpired, boostIfDue]
      split <;> split <;> (try split) <;> exact ⟨rfl, rfl⟩

theorem current_accountTick (alg : Algorithm) (a : Sched) :
    (a.accountTick alg).current = a.current.tick := by
  obtain ⟨hproc, hcurrent⟩ := accountTick_frame alg a
  rw [current, hcurrent, hproc, proc_modify, if_pos rfl, current]

theorem Law.calm_accountTick (h : a.Law) : a.Calm (a.accountTick alg) := by
  have htick : a.Calm (a.modify a.currentProcess Proc.tick) :=
    h.calm_modify rfl rfl fun _ hk => hk
  refine htick.trans ?_
  unfold accountTick onTick
  cases hp : alg.mlPolicy with
  | none => exact htick.law.calm
  | some policy => exact htick.law.calm_multilevelOnTick (zero_mem_levels alg hp)

/-! ## Creation -/

theorem proc_enroll (b : Proc) (p : Pid) :
    (a.enroll alg b).proc p = if p = a.nProcesses then b else a.proc p :=
  Function.update_apply a.proc _ b p

/-- The table may grow by a process that is not ready. -/
theorem Law.enroll (h : a.Law) (hn : a.nProcesses < maxProcesses) {b : Proc}
    (hb : b.state ≠ .ready) : (a.enroll alg b).Law where
  initRegistered := Nat.succ_pos _
  bound := hn
  table i := by
    simp only [Sched.enroll, Function.update_apply, h.table]
    split
    next e => subst e; simp
    next e =>
      have : i < a.nProcesses + 1 ↔ i < a.nProcesses := by omega
      simp only [this]
  nodup := h.nodup
  apart := h.apart
  queued l p hp := by
    obtain ⟨hi, hlt, hs⟩ := h.queued l p hp
    rw [proc_enroll, if_neg (Nat.ne_of_lt hlt)]
    exact ⟨hi, Nat.lt_succ_of_lt hlt, hs⟩
  linked p hi hlt hs := by
    rw [proc_enroll] at hs
    split at hs
    next => exact absurd hs hb
    next e =>
      exact h.linked p hi (Nat.lt_of_le_of_ne (Nat.lt_succ_iff.mp hlt) e) hs

/-- Registration wakes an admitted process. -/
theorem register_eq :
    a.register alg = ((a.enroll alg { a.child with state := .unset }).modify a.nProcesses
      fun _ => a.child).enqueue alg a.nProcesses := by
  simp [register, Sched.enroll, modify, startLevel]

theorem Law.calm_register (h : a.Law) (hn : a.nProcesses < maxProcesses) :
    a.Calm (a.register alg) := by
  have hlaw : (a.register alg).Law := by
    rw [register_eq]
    refine (h.enroll alg hn (by simp)).wake alg ?_ (Nat.lt_succ_self _) _
    exact fun l => h.unlinked_of_le le_rfl l
  have hglob : (a.register alg).toGlobals = (a.enroll alg a.child).toGlobals :=
    toGlobals_enqueue _ _ _
  refine ⟨hlaw, by rw [hglob]; rfl, by rw [hglob]; exact Nat.le_succ _, fun p hp => ?_,
    fun p hp hlt => ?_⟩
  · have hne : p ≠ a.nProcesses := Nat.ne_of_lt hp
    rw [register, proc_enqueue, if_neg fun hc => hne hc.1, proc_enroll, if_neg hne]
    exact .refl _
  · rw [hglob] at hlt
    have he : p = a.nProcesses := Nat.le_antisymm (Nat.lt_succ_iff.mp hlt) hp
    rw [register, proc_enqueue, proc_enroll, if_pos he]
    split <;> rfl

theorem Law.calm_copyProcess (h : a.Law) (page : Bool) : a.Calm (a.copyProcess alg page) := by
  have hdis := h.calm_preemptDisable
  unfold copyProcess
  dsimp only
  split
  next => exact hdis
  next hn =>
    have hreg := hdis.law.calm_register alg (Nat.lt_of_not_le fun hc => hn (.inr hc))
    exact hdis.trans (hreg.trans hreg.law.calm_preemptEnable)

/-! ## Signals and parameters -/

theorem Law.calm_sendSignal (h : a.Law) (p : Pid) (k : Int) : a.Calm (a.sendSignal p k) := by
  refine h.calm_modify rfl rfl fun j hj => ?_
  rw [Proc.pending] at hj ⊢
  rw [BitVec.getLsbD_or, hj, Bool.true_or]

theorem Law.calm_schedSetParam (h : a.Law) (p : Pid) (param value : Int) :
    a.Calm (a.schedSetParam alg p param value) := by
  unfold schedSetParam
  split
  next => exact h.calm
  next =>
    split
    next =>
      split
      next => exact h.calm
      next => exact h.calm_modify rfl rfl fun _ hk => hk
    next =>
      split
      next =>
        split
        next => exact h.calm
        next => exact h.calm_modify rfl rfl fun _ hk => hk
      next =>
        split
        next =>
          split
          next => exact h.calm
          next =>
            have hmod : a.Calm (a.modify p fun b =>
                { b with queuePriority := clampLevel alg value }) :=
              h.calm_modify rfl rfl fun _ hk => hk
            exact hmod.trans (hmod.law.calm_globals rfl rfl rfl rfl rfl)
        next => exact h.calm

/-! ## Operations -/

/-- The state in which the current process has given up the CPU, if the
operation is a call that does so. -/
def givenUp (a : Sched) : Op → Sched
  | .block why => a.block why
  | .wait pid => if a.blocksOn pid then a.waitFor pid else a
  | .exit => a.die
  | _ => a

theorem Law.givenUp (h : a.Law) (hc : a.Current) (op : Op) : (a.givenUp op).Law := by
  have hu := h.unlinked_current hc.outgoing
  cases op with
  | block why =>
      rw [Sched.givenUp, block]
      refine h.modify_unlinked hu fun _ => ?_
      cases why <;> simp [Blocking.state]
  | wait pid =>
      rw [Sched.givenUp, waitFor]
      split
      next => exact h.modify_unlinked hu fun _ => by simp
      next => exact h
  | exit =>
      rw [Sched.givenUp, die]
      exact h.modify_unlinked hu fun _ => by simp
  | _ => exact h

theorem die_preemptDisable (a : Sched) : a.die.preemptDisable = a.preemptDisable.die := by
  simp only [die, preemptDisable, toGlobals_modify, modify_modify]

/-- The current process at the beginning of its exit. -/
theorem proc_dying (a : Sched) (p : Pid) : a.preemptDisable.die.proc p =
    if p = a.currentProcess then
      { a.proc p with state := .zombie, preemptDisabled := (a.proc p).preemptDisabled + 1 }
    else a.proc p := by
  have hdie : a.preemptDisable.die.proc p = if p = a.currentProcess then
      { a.preemptDisable.proc p with state := .zombie } else a.preemptDisable.proc p :=
    proc_modify a.preemptDisable _ p _
  have hdis : a.preemptDisable.proc p = if p = a.currentProcess then
      { a.proc p with preemptDisabled := (a.proc p).preemptDisabled + 1 } else a.proc p :=
    proc_modify a _ p _
  rw [hdie, hdis]
  split <;> rfl

theorem Law.dying (h : a.Law) (hc : a.Current) : a.preemptDisable.die.Law := by
  rw [← die_preemptDisable]
  exact (h.givenUp hc .exit).calm_preemptDisable.law

theorem Law.calm_retireCurrent (h : a.die.Law) : a.die.Calm (a.retireCurrent alg) := by
  have hdis := h.calm_preemptDisable
  rw [die_preemptDisable] at hdis
  have hwake := hdis.law.calm_wakeAll alg (waker_waitsFor a.currentProcess) maxProcesses
  exact hdis.trans (hwake.trans hwake.law.calm_preemptEnable)

/-- Apart from what the current process gives up, an operation is calm until
its decision. -/
theorem Law.calm_before (h : a.Law) (hc : a.Current) {op : Op} (hop : op.Enabled a.toGlobals) :
    (a.givenUp op).Calm (a.before alg op) := by
  have hup := h.givenUp hc op
  cases op with
  | timerTick =>
      have htick := h.calm_accountTick alg
      simp only [before]
      split
      next => exact htick.trans (htick.law.calm_setCounter _ _)
      next => exact htick
  | uartIrq mis fifo => exact h.calm_handleUartIrq alg mis fifo
  | yield =>
      have hset := h.calm_setCounter a.currentProcess 0
      exact hset.trans hset.law.calm_closeBurst
  | block why => exact hup.calm_closeBurst
  | wait pid =>
      simp only [Sched.givenUp, before] at hup ⊢
      split
      next hb => rw [if_pos hb] at hup; exact hup.calm_closeBurst
      next => exact h.calm
  | exit =>
      have hret := hup.calm_retireCurrent alg
      exact hret.trans hret.law.calm_closeBurst
  | copyProcess page => exact h.calm_copyProcess alg page
  | wakeReceiver p => exact h.calm_wakeReceiver alg (h.registered_iff.mp hop)
  | wakeSenders => exact h.calm_wakeAll alg (waker_state _ rfl) _
  | sendSignal p k => exact h.calm_sendSignal p k
  | setParam p param value => exact h.calm_schedSetParam alg p param value

end Sched

end Demoos
