import Demoos.Scheduler.Waiting

/-!
# What releases a waiter

`syscall_wait` does not look at the process it waits for again once it has slept.  It is
cut here at its statements, and interrupts come between any two of them, so a process
can lose the CPU in front of, between and behind the two assignments.

The call is sound because `exit_process` alone wakes this state, and because the values
that `pid_to_wait` has outside the call are those of nobody who exits: the zero of a
fresh page, which is init, and the `-1` of the last release.  So a process that is
switched out between the two assignments is not woken for a wrong pid.  It is not woken
at all.
-/

namespace Demoos

open Function (update update_self update_of_ne)

/-! ## The call -/

/-- Where a process is in `syscall_wait`. -/
inductive WaitPoint where
  | outside
  -- in front of `search_process` and the test of its result
  | search (pid : Int)
  -- in front of the test for `PROCESS_ZOMBIE`
  | test (pid : Int) (destinationProcess : Pid)
  -- in front of the assignment of `state`
  | mark (pid : Int)
  -- in front of the assignment of `pid_to_wait`
  | arm (pid : Int)
  -- in front of `schedule()`
  | sleep (pid : Int)
  -- in front of a `return`
  | leave (pid value : Int)
deriving DecidableEq, Repr

/-- The kernel, and where its processes are. -/
structure Calls where
  kernel : KState
  point : Pid → WaitPoint

/-- An interrupt, an operation of a process outside the call, the call, and its next
statement. -/
inductive WaitEvent where
  | timerTick
  | uartIrq (mis : BitVec 32) (fifo : List (BitVec 32))
  | kernel (op : Op)
  | call (pid : Int)
  | statement
deriving DecidableEq, Repr

def Op.isWait : Op → Bool
  | .wait _ => true
  | _ => false

namespace Calls

/-- Where the current process is. -/
def here (c : Calls) : WaitPoint := c.point c.kernel.currentProcess

def goto (c : Calls) (point : WaitPoint) : Calls :=
  { c with point := update c.point c.kernel.currentProcess point }

/-- `syscall_wait` waits for itself. -/
def Enabled (c : Calls) : WaitEvent → Prop
  | .timerTick | .uartIrq _ _ => True
  | .kernel op => op.Enabled c.kernel.toGlobals ∧ c.here = .outside ∧ op.isWait = false
  | .call _ => c.kernel.currentProcess ≠ initProcess ∧ c.here = .outside
  | .statement => c.here ≠ .outside

instance (c : Calls) (e : WaitEvent) : Decidable (c.Enabled e) := by
  cases e <;> unfold Enabled <;> infer_instance

/-- The next statement of `syscall_wait`. -/
def syscallWait (alg : Algorithm) (c : Calls) : Option Calls :=
  match c.here with
  | .outside => none
  | .search pid =>
      match searchProcess c.kernel pid with
      | none => some (c.goto (.leave pid (-1)))
      | some d => some (c.goto (.test pid d))
  | .test pid d =>
      if (c.kernel.pcb d).state = .zombie then some (c.goto (.leave pid 0))
      else some (c.goto (.mark pid))
  | .mark pid =>
      some { c.goto (.arm pid) with
        kernel := c.kernel.setState c.kernel.currentProcess .waitingAnotherProcess }
  | .arm pid =>
      some { c.goto (.sleep pid) with
        kernel := c.kernel.modify c.kernel.currentProcess fun b => { b with pidToWait := pid } }
  | .sleep pid =>
      (schedule alg c.kernel).map fun k => { c.goto (.leave pid 0) with kernel := k }
  | .leave _ _ => some (c.goto .outside)

def step (alg : Algorithm) (c : Calls) : WaitEvent → Option Calls
  | .timerTick => (handleTimerTick alg c.kernel).map fun k => { c with kernel := k }
  | .uartIrq mis fifo => some { c with kernel := handleUartIrq alg mis fifo c.kernel }
  | .kernel op => (Demoos.step alg c.kernel op).map fun k => { c with kernel := k }
  | .call pid => some (c.goto (.search pid))
  | .statement => c.syscallWait alg

/-- One event of a run. -/
def Next (alg : Algorithm) (c c' : Calls) : Prop :=
  ∃ e, c.Enabled e ∧ c.step alg e = some c'

def boot (timer : Nat → BitVec 32) : Calls where
  kernel := Demoos.boot timer
  point _ := .outside

/-- The states of the runs. -/
def Reachable (alg : Algorithm) : Calls → Prop :=
  Transition.Reachable (fun c => ∃ timer, c = boot timer) (Next alg)

end Calls

/-! ## Who is disturbed -/

/-- What does not matter to a process that waits for another one, or is dead. -/
structure Proc.Undisturbed (b b' : Proc) : Prop where
  waits : b'.state = .waitingAnotherProcess ↔ b.state = .waitingAnotherProcess
  pidToWait : b'.pidToWait = b.pidToWait
  dead : b.state = .zombie → b'.state = .zombie

namespace Proc.Undisturbed

variable {b c d : Proc}

theorem of_state (hs : c.state = b.state) (hp : c.pidToWait = b.pidToWait) : b.Undisturbed c :=
  ⟨by rw [hs], hp, fun h => hs.trans h⟩

theorem refl (b : Proc) : b.Undisturbed b := of_state rfl rfl

theorem trans (h : b.Undisturbed c) (h' : c.Undisturbed d) : b.Undisturbed d :=
  ⟨h'.waits.trans h.waits, h'.pidToWait.trans h.pidToWait, fun hz => h'.dead (h.dead hz)⟩

/-- A process that neither waits for another one nor is dead becomes another such. -/
theorem of_other (hp : c.pidToWait = b.pidToWait) (hb : b.state ≠ .waitingAnotherProcess)
    (hc : c.state ≠ .waitingAnotherProcess) (hz : b.state ≠ .zombie) : b.Undisturbed c :=
  ⟨iff_of_false hc hb, hp, fun h => absurd h hz⟩

end Proc.Undisturbed

namespace Sched

variable {a b : Sched} {alg : Algorithm} {op : Op} {p : Pid}

theorem undisturbed_modify (a : Sched) (p q : Pid) {f : Proc → Proc}
    (hs : ∀ b, (f b).state = b.state) (hp : ∀ b, (f b).pidToWait = b.pidToWait) :
    (a.proc q).Undisturbed ((a.modify p f).proc q) :=
  .of_state (field_modify a p q f Proc.state hs) (field_modify a p q f Proc.pidToWait hp)

theorem undisturbed_closeBurst (a : Sched) (p : Pid) :
    (a.proc p).Undisturbed (a.closeBurst.proc p) :=
  .of_state (state_closeBurst a p)
    (a.field_closeBurst p Proc.pidToWait (fun _ _ => rfl) fun _ => rfl)

theorem undisturbed_preemptDisable (a : Sched) (p : Pid) :
    (a.proc p).Undisturbed (a.preemptDisable.proc p) :=
  a.undisturbed_modify _ p (fun _ => rfl) fun _ => rfl

theorem undisturbed_preemptEnable (a : Sched) (p : Pid) :
    (a.proc p).Undisturbed (a.preemptEnable.proc p) :=
  a.undisturbed_modify _ p (fun _ => rfl) fun _ => rfl

/-- A wake-up of some other waiting state. -/
theorem Law.undisturbed_wakeAll (h : a.Law) (st : ProcessState) (hst : st.blocked = true)
    (hne : st ≠ .waitingAnotherProcess) (n : Nat) (p : Pid) :
    (a.proc p).Undisturbed ((a.wakeAll alg (·.state == st) Proc.makeReady n).proc p) := by
  rw [proc_wakeAll alg h (waker_state st hst)]
  split
  next hc =>
    have hs : (a.proc p).state = st := eq_of_beq hc.2.2
    refine .of_other rfl (hs ▸ hne) nofun ?_
    rw [hs]
    rintro rfl
    exact absurd hst (by decide)
  next => exact .refl _

theorem Law.undisturbed_handleUartIrq (h : a.Law) (mis : BitVec 32) (fifo : List (BitVec 32))
    (p : Pid) : (a.proc p).Undisturbed ((a.handleUartIrq alg mis fifo).proc p) := by
  rcases h.handleUartIrq_cases alg mis fifo with he | he
  · rw [he]
    exact .refl _
  · rw [he]
    exact h.undisturbed_wakeAll .waitingUartInput rfl nofun _ p

theorem undisturbed_accountTick (a : Sched) (p : Pid) :
    (a.proc p).Undisturbed ((a.accountTick alg).proc p) := by
  rw [(accountTick_frame alg a).1]
  exact a.undisturbed_modify _ p (fun _ => rfl) fun _ => rfl

theorem undisturbed_copyProcess (page : Bool) (hp : p < a.nProcesses) :
    (a.proc p).Undisturbed ((a.copyProcess alg page).proc p) := by
  have hdis := a.undisturbed_preemptDisable p
  unfold copyProcess
  dsimp only
  split
  next => exact hdis
  next =>
    have hne : p ≠ a.preemptDisable.nProcesses := Nat.ne_of_lt hp
    refine (hdis.trans ?_).trans (undisturbed_preemptEnable _ p)
    rw [register, proc_enqueue, if_neg fun hc => hne hc.1, proc_enroll, if_neg hne]
    exact .refl _

theorem undisturbed_schedSetParam (process : Pid) (param value : Int) :
    (a.proc p).Undisturbed ((a.schedSetParam alg process param value).proc p) := by
  unfold schedSetParam
  split
  next => exact .refl _
  next =>
    split
    next =>
      split
      next => exact .refl _
      next => exact a.undisturbed_modify _ p (fun _ => rfl) fun _ => rfl
    next =>
      split
      next =>
        split
        next => exact .refl _
        next => exact a.undisturbed_modify _ p (fun _ => rfl) fun _ => rfl
      next =>
        split
        next =>
          split
          next => exact .refl _
          next =>
            exact undisturbed_modify a process p
              (f := fun b => { b with queuePriority := clampLevel alg value })
              (fun _ => rfl) fun _ => rfl
        next => exact .refl _

/-- Up to its decision, only an exit and a wait disturb anybody. -/
theorem Law.undisturbed_before (h : a.Law) (hc : a.Current) (hop : op.Enabled a.toGlobals)
    (hexit : op ≠ .exit) (hwait : op.isWait = false) (hp : p < a.nProcesses) :
    (a.proc p).Undisturbed ((a.before alg op).proc p) := by
  cases op with
  | timerTick =>
      have htick : (a.proc p).Undisturbed ((a.accountTick alg).proc p) :=
        undisturbed_accountTick a p
      simp only [before]
      split
      next => exact htick.trans (undisturbed_modify _ _ p (fun _ => rfl) fun _ => rfl)
      next => exact htick
  | uartIrq mis fifo => exact h.undisturbed_handleUartIrq mis fifo p
  | yield =>
      have hset : (a.proc p).Undisturbed ((a.setCounter a.currentProcess 0).proc p) :=
        a.undisturbed_modify _ p (fun _ => rfl) fun _ => rfl
      exact hset.trans (undisturbed_closeBurst _ p)
  | block why =>
      refine Proc.Undisturbed.trans ?_ (undisturbed_closeBurst _ p)
      rw [block, proc_modify]
      split
      next he =>
        have hrun : (a.proc p).state = .running := he ▸ hc.running hop
        refine .of_other rfl ?_ (blocking_state why).1 ?_ <;> rw [hrun] <;> decide
      next => exact .refl _
  | wait pid => cases hwait
  | exit => exact absurd rfl hexit
  | copyProcess page => exact undisturbed_copyProcess page hp
  | wakeReceiver q =>
      simp only [before, wakeReceiver]
      split
      next hs =>
        rw [proc_enqueue, proc_modify]
        by_cases he : p = q
        · subst he
          have hne : (a.proc p).state ≠ .waitingAnotherProcess ∧ (a.proc p).state ≠ .zombie := by
            rw [hs]
            exact ⟨by decide, by decide⟩
          rw [if_pos rfl]
          split <;> exact .of_other rfl hne.1 (fun he => by cases he) hne.2
        · rw [if_neg fun hc => he hc.1, if_neg he]
          exact .refl _
      next => exact .refl _
  | wakeSenders =>
      rw [before, wakeSenders]
      exact h.undisturbed_wakeAll .waitingToSendMessage rfl (by decide) _ p
  | sendSignal q k =>
      rw [before, sendSignal]
      exact undisturbed_modify a q p (fun _ => rfl) fun _ => rfl
  | setParam q param value => exact undisturbed_schedSetParam q param value

theorem nProcesses_accountTick (alg : Algorithm) (a : Sched) :
    (a.accountTick alg).nProcesses = a.nProcesses := by
  unfold accountTick onTick
  cases alg.mlPolicy with
  | none => rfl
  | some policy =>
      simp only [multilevelOnTick, demoteIfExpired, boostIfDue]
      split <;> split <;> (try split) <;> rfl

theorem Law.nProcesses_retireCurrent (h : a.Law) (hc : a.Current) :
    (a.retireCurrent alg).nProcesses = a.nProcesses := by
  have hdie := h.dying hc
  have hloop := congrArg Globals.nProcesses
    (toGlobals_wakeAll alg hdie (waker_waitsFor a.currentProcess) maxProcesses)
  have hcur : a.preemptDisable.die.currentProcess = a.currentProcess := rfl
  rw [retireCurrent, preemptEnable, toGlobals_modify, hcur]
  exact hloop

/-- Only `copy_process` registers anybody. -/
theorem Law.nProcesses_before (h : a.Law) (hc : a.Current) (hop : ∀ page, op ≠ .copyProcess page) :
    (a.before alg op).nProcesses = a.nProcesses := by
  have hwake : ∀ {a : Sched} {waits wake}, a.Law → Waker waits wake → ∀ n,
      (a.wakeAll alg waits wake n).nProcesses = a.nProcesses := fun h hw n =>
    congrArg Globals.nProcesses (toGlobals_wakeAll alg h hw n)
  have hclose : ∀ a : Sched, a.closeBurst.nProcesses = a.nProcesses := fun a =>
    congrArg Globals.nProcesses a.toGlobals_closeBurst
  cases op with
  | timerTick =>
      simp only [before]
      split <;> exact nProcesses_accountTick alg a
  | uartIrq mis fifo =>
      rw [before]
      rcases h.handleUartIrq_cases alg mis fifo with he | he
      · rw [he]
      · rw [he]
        exact hwake h (waker_state .waitingUartInput rfl) _
  | yield | block why => exact hclose _
  | wait pid =>
      simp only [before]
      split
      next => exact hclose _
      next => rfl
  | exit => exact (hclose _).trans (h.nProcesses_retireCurrent hc)
  | copyProcess page => exact absurd rfl (hop page)
  | wakeReceiver p =>
      simp only [before, wakeReceiver]
      split
      next => exact congrArg Globals.nProcesses (toGlobals_enqueue _ _ _)
      next => rfl
  | wakeSenders =>
      rw [before, wakeSenders]
      exact hwake h (waker_state .waitingToSendMessage rfl) maxProcesses
  | sendSignal p k => rfl
  | setParam p param value =>
      simp only [before, schedSetParam]
      split
      next => rfl
      next =>
        split
        next => split <;> rfl
        next =>
          split
          next => split <;> rfl
          next =>
            split
            next => split <;> rfl
            next => rfl

/-- A decision disturbs nobody but a waiting or dead init. -/
theorem Decides.undisturbed {c : Choice} (h : Decides alg a b c)
    (hi : p = initProcess → (a.proc p).state ≠ .waitingAnotherProcess ∧ (a.proc p).state ≠ .zombie) :
    (a.proc p).Undisturbed (b.proc p) where
  waits := by
    constructor
    · intro hb
      have hcases := h.state_cases p
      rw [hb] at hcases
      rcases hcases with hn | hn | hn
      · exact absurd hn (by decide)
      · exact absurd hn.1 (by decide)
      · exact hn.symm
    · intro ha
      have hbystander := h.bystander (fun e => (hi e).1 ha) (by rw [ha]; nofun) (by rw [ha]; nofun)
      exact hbystander.1.trans ha
  pidToWait := h.pidToWait p
  dead ha := by
    have hbystander := h.bystander (fun e => (hi e).2 ha) (by rw [ha]; nofun) (by rw [ha]; nofun)
    exact hbystander.1.trans ha

/-- An exit kills the current process, releases those who wait for it and disturbs
nobody else. -/
theorem Law.proc_retire (h : a.Law) (alg : Algorithm) (hc : a.Current) (hp : p < a.nProcesses) :
    if p = a.currentProcess then
      ((a.retireCurrent alg).proc p).state = .zombie ∧
        ((a.retireCurrent alg).proc p).pidToWait = (a.proc p).pidToWait
    else if (a.proc p).waitsFor a.currentProcess then
      ((a.retireCurrent alg).proc p).state = .ready ∧ ((a.retireCurrent alg).proc p).pidToWait = -1
    else ((a.retireCurrent alg).proc p).state = (a.proc p).state ∧
      ((a.retireCurrent alg).proc p).pidToWait = (a.proc p).pidToWait := by
  have hdie := h.dying hc
  have hproc := a.proc_dying p
  have hlt : p < maxProcesses := Nat.lt_of_lt_of_le hp h.bound
  have hwoken := proc_wakeAll alg hdie (waker_waitsFor a.currentProcess) maxProcesses p
  have hstate : ∀ w : Sched, (w.preemptEnable.proc p).state = (w.proc p).state := fun w =>
    field_modify w _ p (fun b => { b with preemptDisabled := b.preemptDisabled - 1 }) Proc.state
      fun _ => rfl
  have hwait : ∀ w : Sched, (w.preemptEnable.proc p).pidToWait = (w.proc p).pidToWait := fun w =>
    (w.undisturbed_preemptEnable p).pidToWait
  rw [retireCurrent]
  have hcur : a.preemptDisable.die.currentProcess = a.currentProcess := rfl
  rw [hcur]
  generalize a.preemptDisable.die.wakeAll alg (Proc.waitsFor a.currentProcess) Proc.endWait
    maxProcesses = w at hwoken ⊢
  rw [hstate, hwait]
  split
  next he =>
    rw [hwoken, hproc, if_pos he, if_neg]
    · exact ⟨rfl, rfl⟩
    · rintro ⟨_, _, hwaits⟩
      cases (waitsFor_iff.mp hwaits).1
  next hne =>
    rw [hproc, if_neg hne] at hwoken
    split
    next hwaits =>
      rw [hwoken, if_pos ⟨hlt, hp, hwaits⟩]
      exact ⟨rfl, rfl⟩
    next hwaits =>
      rw [hwoken, if_neg fun hc => hwaits hc.2.2]
      exact ⟨rfl, rfl⟩

/-! ## Where a process can be -/

/-- The values of `pid_to_wait` of a process that is not in the second half of the call. -/
def Unset (b : Proc) : Prop := b.pidToWait = -1 ∨ b.pidToWait = 0

/-- The process with this pid is dead. -/
def Dead (a : Sched) (pid : Int) : Prop :=
  ∃ d < a.nProcesses, (d : Int) = pid ∧ (a.proc d).state = .zombie

/-- Outside the second half of the call. -/
def Free (b : Proc) : Prop := b.state ≠ .waitingAnotherProcess ∧ Unset b

/-- Asleep for `pid`, or released by its death. -/
def Awaits (a : Sched) (b : Proc) (pid : Int) : Prop :=
  b.state = .waitingAnotherProcess ∧ b.pidToWait = pid ∨ Free b ∧ a.Dead pid

/-- What holds of a process at its point. -/
def Place (a : Sched) (b : Proc) : WaitPoint → Prop
  | .outside | .search _ | .mark _ => Free b
  | .test pid d => Free b ∧ d < a.nProcesses ∧ (d : Int) = pid
  | .arm _ => b.state = .waitingAnotherProcess ∧ Unset b
  | .sleep pid => a.Awaits b pid
  | .leave pid value => if value = 0 then a.Awaits b pid else Free b

/-- Every process is in its place, and init is never in the call. -/
structure Placed (a : Sched) (point : Pid → WaitPoint) : Prop where
  law : a.Law
  initOutside : point initProcess = .outside
  initAlive : (a.proc initProcess).state ≠ .zombie
  fresh : ∀ p, a.nProcesses ≤ p → point p = .outside
  place : ∀ p < a.nProcesses, a.Place (a.proc p) (point p)

variable {point : Pid → WaitPoint} {b' : Proc} {pid : Int}

theorem Dead.mono (h : a.Dead pid) (hn : a.nProcesses ≤ b.nProcesses)
    (hz : ∀ d < a.nProcesses, (a.proc d).state = .zombie → (b.proc d).state = .zombie) :
    b.Dead pid := by
  obtain ⟨d, hd, he, hs⟩ := h
  exact ⟨d, Nat.lt_of_lt_of_le hd hn, he, hz d hd hs⟩

theorem Free.undisturbed {b c : Proc} (h : Free b) (hu : b.Undisturbed c) : Free c :=
  ⟨fun hc => h.1 (hu.waits.mp hc), by rw [Unset, hu.pidToWait]; exact h.2⟩

theorem Awaits.undisturbed {c : Proc} (h : a.Awaits b' pid) (hu : b'.Undisturbed c)
    (hd : a.Dead pid → b.Dead pid) : b.Awaits c pid := by
  rcases h with ⟨hs, hp⟩ | ⟨hf, hdead⟩
  · exact .inl ⟨hu.waits.mpr hs, hu.pidToWait.trans hp⟩
  · exact .inr ⟨hf.undisturbed hu, hd hdead⟩

/-- A process that is not disturbed stays in its place. -/
theorem Place.undisturbed {c : Proc} {pt : WaitPoint} (h : a.Place b' pt) (hu : b'.Undisturbed c)
    (hn : a.nProcesses ≤ b.nProcesses) (hd : ∀ pid, a.Dead pid → b.Dead pid) : b.Place c pt := by
  cases pt with
  | outside | search | mark => exact Free.undisturbed h hu
  | test pid d => exact ⟨h.1.undisturbed hu, Nat.lt_of_lt_of_le h.2.1 hn, h.2.2⟩
  | arm => exact ⟨hu.waits.mpr h.1, by rw [Unset, hu.pidToWait]; exact h.2⟩
  | sleep pid => exact Awaits.undisturbed h hu (hd pid)
  | leave pid value =>
      by_cases hv : value = 0
      · rw [Place, if_pos hv] at h ⊢
        exact Awaits.undisturbed h hu (hd pid)
      · rw [Place, if_neg hv] at h ⊢
        exact Free.undisturbed h hu

/-- A release is one by the death of the right process. -/
theorem Place.released {c : Proc} {pt : WaitPoint} {q : Pid} (h : a.Place b' pt)
    (hw : b'.waitsFor q = true) (hq : q ≠ initProcess) (hc : c.state = .ready ∧ c.pidToWait = -1)
    (hd : b.Dead q) : b.Place c pt := by
  obtain ⟨hs, hp⟩ := waitsFor_iff.mp hw
  have hfree : Free c := ⟨by rw [hc.1]; nofun, .inl hc.2⟩
  have hset : ¬ Unset b' := by
    rw [Unset, hp]
    rintro (hneg | hzero)
    · exact absurd (Int.natCast_nonneg q) (by rw [hneg]; decide)
    · exact hq (Int.natCast_eq_zero.mp hzero)
  have hawaits : ∀ {pid}, a.Awaits b' pid → b.Awaits c pid := by
    rintro pid (⟨_, hpid⟩ | ⟨hf, _⟩)
    · exact .inr ⟨hfree, hpid ▸ hp ▸ hd⟩
    · exact absurd hs hf.1
  cases pt with
  | outside | search | mark => exact absurd hs h.1
  | test pid d => exact absurd hs h.1.1
  | arm => exact absurd h.2 hset
  | sleep pid => exact hawaits h
  | leave pid value =>
      by_cases hv : value = 0
      · rw [Place, if_pos hv] at h ⊢
        exact hawaits h
      · rw [Place, if_neg hv] at h
        exact absurd hs h.1

/-- A change that disturbs nobody and registers free processes only. -/
theorem Placed.change (h : a.Placed point) (hlaw : b.Law) (hn : a.nProcesses ≤ b.nProcesses)
    (hu : ∀ p < a.nProcesses, (a.proc p).Undisturbed (b.proc p))
    (hnew : ∀ p, a.nProcesses ≤ p → p < b.nProcesses → Free (b.proc p))
    (hi : (b.proc initProcess).state ≠ .zombie) : b.Placed point where
  law := hlaw
  initOutside := h.initOutside
  initAlive := hi
  fresh p hp := h.fresh p (hn.trans hp)
  place p hp := by
    rcases Nat.lt_or_ge p a.nProcesses with hlt | hge
    · refine (h.place p hlt).undisturbed (hu p hlt) hn fun pid hd => hd.mono hn fun d hd => ?_
      exact (hu d hd).dead
    · rw [h.fresh p hge]
      exact hnew p hge hp

theorem Placed.init_free (h : a.Placed point) : Free (a.proc initProcess) := by
  have hplace := h.place initProcess h.law.initRegistered
  rwa [h.initOutside] at hplace

theorem Placed.decides {c : Choice} (h : a.Placed point) (hd : Decides alg a b c) :
    b.Placed point := by
  have hu : ∀ p, (a.proc p).Undisturbed (b.proc p) := fun p =>
    hd.undisturbed fun he => by rw [he]; exact ⟨h.init_free.1, h.initAlive⟩
  have hn := hd.nProcesses
  refine h.change hd.law hn.ge (fun p _ => hu p)
    (fun p hle hlt => absurd (hn ▸ hlt) (Nat.not_lt.mpr hle)) fun hz => ?_
  have hcases := hd.state_cases initProcess
  rw [hz] at hcases
  rcases hcases with hn | ⟨_, hv, _⟩ | hn
  · exact absurd hn (by decide)
  · exact (hd.ready_of_visited hv).2 rfl
  · exact h.initAlive hn.symm

theorem Placed.closeBurst (h : a.Placed point) : a.closeBurst.Placed point := by
  have hcalm := h.law.calm_closeBurst
  refine h.change hcalm.law hcalm.nProcesses (fun p _ => undisturbed_closeBurst a p)
    (fun p hle hlt => ?_) ?_
  · rw [toGlobals_closeBurst] at hlt
    exact absurd hlt (Nat.not_lt.mpr hle)
  · rw [state_closeBurst]
    exact h.initAlive

theorem Placed.retireCurrent (h : a.Placed point) (hc : a.Current)
    (hi : a.currentProcess ≠ initProcess) (hout : point a.currentProcess = .outside) :
    (a.retireCurrent alg).Placed point := by
  have hcalm : a.die.Calm (a.retireCurrent alg) := (h.law.givenUp hc .exit).calm_retireCurrent alg
  have hn : (a.retireCurrent alg).nProcesses = a.nProcesses := h.law.nProcesses_retireCurrent hc
  have hproc : ∀ {p}, p < a.nProcesses → _ := fun hp => h.law.proc_retire alg hc hp
  have hdeadCurrent := hproc hc.registered
  rw [if_pos rfl] at hdeadCurrent
  have hdead : (a.retireCurrent alg).Dead a.currentProcess :=
    ⟨_, by rw [hn]; exact hc.registered, rfl, hdeadCurrent.1⟩
  have hz : ∀ d < a.nProcesses, (a.proc d).state = .zombie →
      ((a.retireCurrent alg).proc d).state = .zombie := by
    intro d hd hs
    have hone := hproc hd
    split at hone
    next => exact hone.1
    next =>
      split at hone
      next hw =>
        rw [(waitsFor_iff.mp hw).1] at hs
        cases hs
      next => exact hone.1.trans hs
  refine ⟨hcalm.law, h.initOutside, ?_, fun p hp => h.fresh p (hn ▸ hp), fun p hp => ?_⟩
  · intro hs
    have hold : (a.die.proc initProcess).state = .zombie :=
      (hcalm.zombie (by rw [hn]; exact h.law.initRegistered) hs).2
    rw [die, proc_modify, if_neg (Ne.symm hi)] at hold
    exact h.initAlive hold
  · rw [hn] at hp
    have hplace := h.place p hp
    have hone := hproc hp
    split at hone
    next he =>
      rw [he, hout] at hplace ⊢
      rw [he] at hone
      exact ⟨by rw [hone.1]; decide, by rw [Unset, hone.2]; exact hplace.2⟩
    next =>
      split at hone
      next hw => exact hplace.released hw hi hone hdead
      next =>
        exact hplace.undisturbed (.of_state hone.1 hone.2) hn.ge fun pid hd => hd.mono hn.ge hz

theorem Placed.exit (h : a.Placed point) (hc : a.Current) (hi : a.currentProcess ≠ initProcess)
    (hout : point a.currentProcess = .outside) : (a.before alg .exit).Placed point :=
  (h.retireCurrent hc hi hout).closeBurst

/-! ## Steps -/

/-- The invariant of the runs. -/
structure Waits (a : Sched) (point : Pid → WaitPoint) : Prop where
  placed : a.Placed point
  registered : a.currentProcess < a.nProcesses
  current : a.currentProcess ≠ initProcess → a.current.state = .running ∨
    a.current.state = .waitingAnotherProcess ∧
      ∃ pid, point a.currentProcess = .arm pid ∨ point a.currentProcess = .sleep pid

theorem Waits.outgoing (h : a.Waits point) : a.Outgoing where
  registered := h.registered
  notReady hi := by
    rcases h.current hi with hs | ⟨hs, _⟩ <;> rw [hs] <;> nofun

/-- Outside the second half of the call a process that has the CPU is running. -/
theorem Waits.running (h : a.Waits point) (hi : a.currentProcess ≠ initProcess)
    (hpoint : ∀ pid, point a.currentProcess ≠ .arm pid ∧ point a.currentProcess ≠ .sleep pid) :
    a.current.state = .running := by
  rcases h.current hi with hs | ⟨_, pid, hp | hp⟩
  · exact hs
  · exact absurd hp (hpoint pid).1
  · exact absurd hp (hpoint pid).2

theorem Waits.of_decides {c : Choice} (h : a.Placed point) (hd : Decides alg a b c) :
    b.Waits point where
  placed := h.decides hd
  registered := hd.current.registered
  current hi := .inl (hd.current.running hi)

/-- A change in front of a decision, or without one. -/
theorem Waits.change (h : a.Waits point) (hcalm : a.Calm b)
    (hu : ∀ p < a.nProcesses, (a.proc p).Undisturbed (b.proc p))
    (hnew : ∀ p, a.nProcesses ≤ p → p < b.nProcesses → Free (b.proc p)) : b.Waits point where
  placed := by
    refine h.placed.change hcalm.law hcalm.nProcesses hu hnew fun hs => ?_
    have hlt := Nat.lt_of_lt_of_le h.placed.law.initRegistered hcalm.nProcesses
    exact h.placed.initAlive (hcalm.zombie hlt hs).2
  registered := by
    rw [hcalm.currentProcess]
    exact Nat.lt_of_lt_of_le h.registered hcalm.nProcesses
  current hi := by
    rw [hcalm.currentProcess] at hi
    have hundisturbed := hu _ h.registered
    rw [Sched.current, hcalm.currentProcess]
    rcases h.current hi with hs | ⟨hs, hp⟩
    · rcases (hcalm.proc _ h.registered).state with ⟨he, _⟩ | ⟨hb, _⟩
      · exact .inl (he.trans hs)
      · rw [← Sched.current, hs] at hb
        cases hb
    · exact .inr ⟨hundisturbed.waits.mpr hs, hp⟩

theorem Law.free_copyProcess (h : a.Law) (page : Bool) (hle : a.nProcesses ≤ p)
    (hlt : p < (a.copyProcess alg page).nProcesses) : Free ((a.copyProcess alg page).proc p) := by
  have hready := (h.calm_copyProcess alg page).fresh p hle hlt
  refine ⟨by rw [hready]; nofun, .inr ?_⟩
  unfold copyProcess at hlt ⊢
  dsimp only at hlt ⊢
  split at hlt
  next => exact absurd hlt (Nat.not_lt.mpr hle)
  next hn =>
    rw [if_neg hn, (undisturbed_preemptEnable _ p).pidToWait]
    have hglob : (a.preemptDisable.register alg).toGlobals =
        (a.preemptDisable.enroll alg a.preemptDisable.child).toGlobals := toGlobals_enqueue _ _ _
    have hp : p < a.nProcesses + 1 := by
      have hreg := congrArg Globals.nProcesses hglob
      exact Nat.lt_of_lt_of_eq hlt hreg
    have he : p = a.preemptDisable.nProcesses := Nat.le_antisymm (Nat.lt_succ_iff.mp hp) hle
    rw [register, proc_enqueue, proc_enroll, if_pos he]
    split <;> rfl

theorem zombie_givenUp (hop : op.Enabled a.toGlobals) (he : op ≠ .exit)
    (hs : ((a.givenUp op).proc initProcess).state = .zombie) :
    (a.proc initProcess).state = .zombie := by
  cases op with
  | block why | wait pid => rwa [proc_givenUp_of_ne _ (Ne.symm hop)] at hs
  | exit => exact absurd rfl he
  | _ => exact hs

/-- An operation of a process outside the call. -/
theorem Waits.kernel (h : a.Waits point) (hop : op.Enabled a.toGlobals)
    (hout : point a.currentProcess = .outside) (hwait : op.isWait = false)
    (hb : a.step alg op = some b) : b.Waits point := by
  have hc : a.Current := ⟨h.registered, fun hi => h.running hi fun pid => by
    rw [hout]; exact ⟨nofun, nofun⟩⟩
  have hlaw := h.placed.law
  have hbefore : (a.before alg op).Placed point ∧
      (a.decides alg op = false → (a.before alg op).Waits point) := by
    by_cases he : op = .exit
    · subst he
      exact ⟨h.placed.exit hc hop hout, fun hd => absurd hd nofun⟩
    · have hcalm := hlaw.calm_before alg hc hop
      have hu : ∀ p < a.nProcesses, (a.proc p).Undisturbed ((a.before alg op).proc p) :=
        fun p hp => hlaw.undisturbed_before hc hop he hwait hp
      have hnew : ∀ p, a.nProcesses ≤ p → p < (a.before alg op).nProcesses →
          Free ((a.before alg op).proc p) := by
        intro p hle hlt
        by_cases hcopy : ∃ page, op = .copyProcess page
        · obtain ⟨page, rfl⟩ := hcopy
          exact hlaw.free_copyProcess page hle hlt
        · rw [hlaw.nProcesses_before hc fun page e => hcopy ⟨page, e⟩] at hlt
          exact absurd hlt (Nat.not_lt.mpr hle)
      have hn : a.nProcesses ≤ (a.before alg op).nProcesses := by
        have hle := hcalm.nProcesses
        rwa [toGlobals_givenUp] at hle
      refine ⟨h.placed.change hcalm.law hn hu hnew fun hs => ?_, fun hd => ?_⟩
      · have hold := (hcalm.zombie (Nat.lt_of_lt_of_le hlaw.initRegistered hn) hs).2
        exact h.placed.initAlive (zombie_givenUp hop he hold)
      · rw [givenUp_eq hd] at hcalm
        exact h.change hcalm hu hnew
  rcases hlaw.step_cases hc hop hb with ⟨_, c, hd⟩ | ⟨hd, rfl⟩
  · exact .of_decides hbefore.1 hd
  · exact hbefore.2 hd

/-- A timer tick or an interrupt of the UART, wherever the current process is. -/
theorem Waits.before_interrupt (h : a.Waits point) (alg : Algorithm)
    (hop : op = .timerTick ∨ ∃ mis fifo, op = .uartIrq mis fifo) :
    (a.before alg op).Waits point := by
  have hlaw := h.placed.law
  rcases hop with rfl | ⟨mis, fifo, rfl⟩
  · have htick := hlaw.calm_accountTick alg
    have hn := nProcesses_accountTick alg a
    have haccount := h.change htick (fun p _ => undisturbed_accountTick a p)
      fun p hle hlt => absurd (hn ▸ hlt) (Nat.not_lt.mpr hle)
    simp only [before]
    split
    next =>
      exact haccount.change (htick.law.calm_setCounter _ 0)
        (fun p _ => undisturbed_modify _ _ p (fun _ => rfl) fun _ => rfl)
        fun p hle hlt => absurd hlt (Nat.not_lt.mpr hle)
    next => exact haccount
  · refine h.change (hlaw.calm_handleUartIrq alg mis fifo)
      (fun p _ => hlaw.undisturbed_handleUartIrq mis fifo p) fun p hle hlt => ?_
    rcases hlaw.handleUartIrq_cases alg mis fifo with he | he
    · rw [before, he] at hlt
      exact absurd hlt (Nat.not_lt.mpr hle)
    · rw [before, he, wakeReaders,
        toGlobals_wakeAll alg hlaw (waker_state .waitingUartInput rfl)] at hlt
      exact absurd hlt (Nat.not_lt.mpr hle)

theorem Waits.interrupt (h : a.Waits point)
    (hop : op = .timerTick ∨ ∃ mis fifo, op = .uartIrq mis fifo)
    (hb : a.step alg op = some b) : b.Waits point := by
  have hbefore := h.before_interrupt alg hop
  unfold Sched.step at hb
  split at hb
  next =>
    obtain ⟨c, hd⟩ := hbefore.placed.law.pickNext hbefore.outgoing hb
    exact .of_decides hbefore.placed hd
  next => exact Option.some.inj hb ▸ hbefore

/-! ## Statements of the call -/

/-- The current process goes to its next point, and writes its own fields on the way. -/
theorem Placed.move (h : a.Placed point) {f : Proc → Proc} {pt : WaitPoint}
    (hreg : a.currentProcess < a.nProcesses) (hi : a.currentProcess ≠ initProcess)
    (hlaw : (a.modify a.currentProcess f).Law) (hz : a.current.state ≠ .zombie)
    (hplace : (a.modify a.currentProcess f).Place (f a.current) pt) :
    (a.modify a.currentProcess f).Placed (update point a.currentProcess pt) where
  law := hlaw
  initOutside := by
    rw [update_of_ne (Ne.symm hi)]
    exact h.initOutside
  initAlive := by
    rw [proc_modify, if_neg (Ne.symm hi)]
    exact h.initAlive
  fresh p hp := by
    have hne : p ≠ a.currentProcess := Nat.ne_of_gt (Nat.lt_of_lt_of_le hreg hp)
    rw [update_of_ne hne]
    exact h.fresh p hp
  place p hp := by
    rw [proc_modify]
    split
    next he =>
      rw [he, update_self]
      exact hplace
    next hne =>
      rw [update_of_ne hne]
      refine (h.place p hp).undisturbed (.refl _) (Nat.le_refl _) fun pid hd => ?_
      refine hd.mono (Nat.le_refl _) fun d _ hs => ?_
      rw [proc_modify, if_neg]
      · exact hs
      · rintro rfl
        exact hz hs

theorem Placed.goto (h : a.Placed point) {pt : WaitPoint}
    (hreg : a.currentProcess < a.nProcesses) (hi : a.currentProcess ≠ initProcess)
    (hz : a.current.state ≠ .zombie) (hplace : a.Place a.current pt) :
    a.Placed (update point a.currentProcess pt) := by
  have hself : a.modify a.currentProcess id = a := modify_self rfl
  have hmove : (a.modify a.currentProcess id).Placed (update point a.currentProcess pt) :=
    h.move hreg hi (hself.symm ▸ h.law) hz (hself.symm ▸ hplace)
  rwa [hself] at hmove

theorem Waits.alive (h : a.Waits point) (hi : a.currentProcess ≠ initProcess) :
    a.current.state ≠ .zombie := by
  rcases h.current hi with hs | ⟨hs, _⟩ <;> rw [hs] <;> nofun

theorem Waits.here (h : a.Waits point) : a.Place a.current (point a.currentProcess) :=
  h.placed.place _ h.registered

/-- A step in the first half of the call, or out of it. -/
theorem Waits.goto (h : a.Waits point) {pt : WaitPoint} (hi : a.currentProcess ≠ initProcess)
    (hrun : a.current.state = .running) (hplace : a.Place a.current pt) :
    a.Waits (update point a.currentProcess pt) where
  placed := h.placed.goto h.registered hi (h.alive hi) hplace
  registered := h.registered
  current _ := .inl hrun

theorem Waits.ne_init (h : a.Waits point) (hout : point a.currentProcess ≠ .outside) :
    a.currentProcess ≠ initProcess := fun he => hout (he ▸ h.placed.initOutside)

theorem search_lt {d : Pid} (h : a.search pid = some d) : d < a.nProcesses := by
  unfold search at h
  split at h
  next hc =>
    rw [← Option.some.inj h]
    exact (Int.toNat_lt hc.1).mpr hc.2
  next => exact absurd h nofun

theorem Waits.mark (h : a.Waits point) (hp : point a.currentProcess = .mark pid) :
    (a.modify a.currentProcess fun b => { b with state := .waitingAnotherProcess }).Waits
      (update point a.currentProcess (.arm pid)) := by
  have hi := h.ne_init (by rw [hp]; nofun)
  have hfree : a.Place a.current (.mark pid) := hp ▸ h.here
  have hlaw := h.placed.law.modify_unlinked (h.placed.law.unlinked_current h.outgoing)
    (f := fun b => { b with state := .waitingAnotherProcess }) fun _ => nofun
  refine ⟨h.placed.move h.registered hi hlaw (h.alive hi) ⟨rfl, hfree.2⟩, h.registered,
    fun _ => .inr ⟨?_, pid, .inl (update_self ..)⟩⟩
  rw [Sched.current, proc_modify, toGlobals_modify, if_pos rfl]

theorem Waits.arm (h : a.Waits point) (hp : point a.currentProcess = .arm pid) :
    (a.modify a.currentProcess fun b => { b with pidToWait := pid }).Waits
      (update point a.currentProcess (.sleep pid)) := by
  have hi := h.ne_init (by rw [hp]; nofun)
  have harm : a.Place a.current (.arm pid) := hp ▸ h.here
  have hlaw : (a.modify a.currentProcess fun b => { b with pidToWait := pid }).Law :=
    h.placed.law.modify rfl
  refine ⟨h.placed.move h.registered hi hlaw (h.alive hi) (.inl ⟨harm.1, rfl⟩), h.registered,
    fun _ => .inr ⟨?_, pid, .inr (update_self ..)⟩⟩
  rw [Sched.current, proc_modify, toGlobals_modify, if_pos rfl]
  exact harm.1

theorem Waits.sleep (h : a.Waits point) (hp : point a.currentProcess = .sleep pid)
    (hb : a.closeBurst.pickNext alg = some b) :
    b.Waits (update point a.currentProcess (.leave pid 0)) := by
  have hi := h.ne_init (by rw [hp]; nofun)
  have hawaits : a.Place a.current (.sleep pid) := hp ▸ h.here
  have hgone : a.Placed (update point a.currentProcess (.leave pid 0)) :=
    h.placed.goto h.registered hi (h.alive hi) hawaits
  have hclosed : a.closeBurst.Placed (update point a.currentProcess (.leave pid 0)) :=
    hgone.closeBurst
  have hout : a.closeBurst.Outgoing := by
    refine ⟨by rw [toGlobals_closeBurst]; exact h.registered, fun hi' => ?_⟩
    rw [Sched.current, state_closeBurst, toGlobals_closeBurst]
    rw [toGlobals_closeBurst] at hi'
    exact h.outgoing.notReady hi'
  obtain ⟨c, hd⟩ := hclosed.law.pickNext hout hb
  exact .of_decides hclosed hd

/-- A process in front of `return 0` has the CPU again, so it was released. -/
theorem Waits.dead (h : a.Waits point) (hp : point a.currentProcess = .leave pid 0) :
    a.current.state = .running ∧ Free a.current ∧ a.Dead pid := by
  have hi := h.ne_init (by rw [hp]; nofun)
  have hrun := h.running hi fun _ => by rw [hp]; exact ⟨nofun, nofun⟩
  have hawaits : a.Awaits a.current pid := by
    have hplace := h.here
    rwa [hp] at hplace
  rcases hawaits with ⟨hs, _⟩ | hdead
  · rw [hrun] at hs
    exact absurd hs nofun
  · exact ⟨hrun, hdead⟩

/-! ## The queues of an exit -/

/-- A loop leaves those who do not wait where they are. -/
theorem Law.mem_wakeAll (h : a.Law) (alg : Algorithm) {waits : Proc → Bool} {wake : Proc → Proc}
    (hw : Waker waits wake) (hp : waits (a.proc p) = false) (n : Nat) (l : ReadyList) :
    p ∈ (a.wakeAll alg waits wake n).list l ↔ p ∈ a.list l := by
  induction n with
  | zero => exact Iff.rfl
  | succ n ih =>
      rw [wakeAll_succ, wakeSlot_eq alg (h.wakeAll alg hw n)]
      split
      next hc =>
        rw [mem_list_enqueue]
        refine ⟨fun hm => hm.elim ih.mp ?_, fun hm => .inl (ih.mpr hm)⟩
        rintro ⟨rfl, _⟩
        rw [proc_wakeAll alg h hw, if_neg fun hlt => Nat.lt_irrefl p hlt.1, hp] at hc
        exact absurd hc.2 Bool.false_ne_true
      next => exact ih

theorem Law.mem_retireCurrent (h : a.Law) (alg : Algorithm) (hc : a.Current)
    (hp : (a.proc p).waitsFor a.currentProcess = false) (hne : p ≠ a.currentProcess)
    (l : ReadyList) : p ∈ (a.retireCurrent alg).list l ↔ p ∈ a.list l := by
  have hdie := h.dying hc
  have hproc : a.preemptDisable.die.proc p = a.proc p := by
    rw [proc_dying, if_neg hne]
  have hmem := hdie.mem_wakeAll alg (waker_waitsFor a.currentProcess) (hproc ▸ hp)
    maxProcesses l
  have hcur : a.preemptDisable.die.currentProcess = a.currentProcess := rfl
  rw [retireCurrent, preemptEnable, list_modify, hcur]
  exact hmem

end Sched

/-! ## The code -/

section Code

variable {alg : Algorithm} {s t : KState} {a b : Sched} {op : Op} {c c' : Calls}

/-- The state of the code follows that of the abstract scheduler. -/
structure Follows (c : Calls) (a : Sched) : Prop where
  refines : Refines c.kernel a
  waits : a.Waits c.point

theorem Follows.here_eq (h : Follows c a) : c.here = c.point a.currentProcess := by
  rw [Calls.here, h.refines.currentProcess]

theorem Follows.goto (h : Follows c a) {pt : WaitPoint}
    (hw : a.Waits (update c.point a.currentProcess pt)) : Follows (c.goto pt) a where
  refines := h.refines
  waits := by
    rw [← h.refines.currentProcess] at hw
    exact hw

/-- The same with a change of the kernel. -/
theorem Follows.goto_kernel (h : Follows c a) {k : KState} {pt : WaitPoint} (hk : Refines k b)
    (hw : b.Waits (update c.point a.currentProcess pt)) :
    Follows { c.goto pt with kernel := k } b where
  refines := hk
  waits := by
    rw [← h.refines.currentProcess] at hw
    exact hw

theorem Follows.interrupt {k : KState} (h : Follows c a)
    (hop : op = .timerTick ∨ ∃ mis fifo, op = .uartIrq mis fifo)
    (hs : step alg c.kernel op = some k) : ∃ b, Follows { c with kernel := k } b := by
  have hlaw := h.waits.placed.law
  have hbefore : Refines (before alg c.kernel op) (a.before alg op) := by
    rcases hop with rfl | ⟨mis, fifo, rfl⟩
    · exact h.refines.before_timerTick alg hlaw
    · exact h.refines.handleUartIrq alg hlaw mis fifo
  have hwaits := h.waits.before_interrupt alg hop
  have hrel := h.refines.step_of_before alg hlaw hbefore hwaits.placed.law.lists hwaits.registered
  rw [hs] at hrel
  cases hb : a.step alg op with
  | none => rw [hb] at hrel; cases hrel
  | some b =>
      rw [hb] at hrel
      cases hrel with
      | some href => exact ⟨b, href, h.waits.interrupt hop hb⟩

/-- The kernel of a process outside the second half of the call. -/
theorem Follows.represents (h : Follows c a) (hout : c.here = .outside) :
    Represents c.kernel a where
  refines := h.refines
  law := h.waits.placed.law
  current := ⟨h.waits.registered, fun hi => h.waits.running hi fun _ => by
    rw [← h.here_eq, hout]; exact ⟨nofun, nofun⟩⟩

theorem Follows.kernel {k : KState} (h : Follows c a) (hop : op.Enabled c.kernel.toGlobals)
    (hout : c.here = .outside) (hwait : op.isWait = false)
    (hs : step alg c.kernel op = some k) : ∃ b, Follows { c with kernel := k } b := by
  obtain ⟨b, hb, hrep⟩ := (h.represents hout).step hop hs
  rw [h.refines.globals] at hop
  exact ⟨b, hrep.refines, h.waits.kernel hop (h.here_eq.symm.trans hout) hwait hb⟩

/-- The current process is in the call and runs. -/
theorem Follows.advance (h : Follows c a) {pt : WaitPoint}
    (hi : c.kernel.currentProcess ≠ initProcess)
    (hrun : ∀ pid, c.here ≠ .arm pid ∧ c.here ≠ .sleep pid) (hplace : a.Place a.current pt) :
    Follows (c.goto pt) a := by
  rw [h.refines.currentProcess] at hi
  rw [h.here_eq] at hrun
  exact h.goto (h.waits.goto hi (h.waits.running hi hrun) hplace)

theorem Follows.statement (h : Follows c a) (hs : c.syscallWait alg = some c') :
    ∃ b, Follows c' b := by
  have hhere := h.waits.here
  rw [← h.here_eq] at hhere
  have hi : c.here ≠ .outside → c.kernel.currentProcess ≠ initProcess := by
    rw [h.refines.currentProcess, h.here_eq]
    exact h.waits.ne_init
  unfold Calls.syscallWait at hs
  split at hs
  next => cases hs
  next pid hp =>
    rw [hp] at hhere hi
    have hrun : ∀ pid, c.here ≠ .arm pid ∧ c.here ≠ .sleep pid := by
      rw [hp]; exact fun _ => ⟨by simp, by simp⟩
    have hsearch := h.refines.searchProcess h.waits.placed.law pid
    split at hs
    next hnone =>
      obtain rfl := Option.some.inj hs
      exact ⟨a, h.advance (hi (by simp)) hrun hhere⟩
    next d hsome =>
      obtain rfl := Option.some.inj hs
      rw [hsearch] at hsome
      have hd := Sched.search_eq_some hsome
      exact ⟨a, h.advance (hi (by simp)) hrun ⟨hhere, Sched.search_lt hsome, hd.symm⟩⟩
  next pid d hp =>
    rw [hp] at hhere hi
    have hrun : ∀ pid, c.here ≠ .arm pid ∧ c.here ≠ .sleep pid := by
      rw [hp]; exact fun _ => ⟨by simp, by simp⟩
    obtain ⟨hfree, hd, hpid⟩ := hhere
    split at hs
    next hz =>
      obtain rfl := Option.some.inj hs
      rw [h.refines.state_eq] at hz
      have hdead : a.Dead pid := ⟨d, hd, hpid, hz⟩
      exact ⟨a, h.advance (hi (by simp)) hrun (.inr ⟨hfree, hdead⟩)⟩
    next =>
      obtain rfl := Option.some.inj hs
      exact ⟨a, h.advance (hi (by simp)) hrun hfree⟩
  next pid hp =>
    obtain rfl := Option.some.inj hs
    have hmark := h.waits.mark (h.here_eq.symm.trans hp)
    refine ⟨_, h.goto_kernel ?_ hmark⟩
    rw [h.refines.currentProcess]
    exact h.refines.setState _ _
  next pid hp =>
    obtain rfl := Option.some.inj hs
    have harm := h.waits.arm (h.here_eq.symm.trans hp)
    refine ⟨_, h.goto_kernel ?_ harm⟩
    rw [h.refines.currentProcess]
    exact h.refines.modify _ _
  next pid hp =>
    obtain ⟨k, hk, rfl⟩ := Option.map_eq_some_iff.mp hs
    have hclosed := h.refines.closeBurst
    have hcalm := h.waits.placed.law.calm_closeBurst
    have hreg : a.closeBurst.currentProcess < a.closeBurst.nProcesses := by
      rw [Sched.toGlobals_closeBurst]
      exact h.waits.registered
    have hrel := hclosed.pickNext alg hcalm.law.lists hreg
    rw [schedule] at hk
    rw [hk] at hrel
    cases hb : a.closeBurst.pickNext alg with
    | none => rw [hb] at hrel; cases hrel
    | some b =>
        rw [hb] at hrel
        cases hrel with
        | some href =>
            exact ⟨b, h.goto_kernel href (h.waits.sleep (h.here_eq.symm.trans hp) hb)⟩
  next pid value hp =>
    obtain rfl := Option.some.inj hs
    rw [hp] at hhere hi
    have hrun : ∀ pid, c.here ≠ .arm pid ∧ c.here ≠ .sleep pid := by
      rw [hp]; exact fun _ => ⟨by simp, by simp⟩
    have hfree : Sched.Free a.current := by
      by_cases hv : value = 0
      · subst hv
        exact (h.waits.dead (h.here_eq.symm.trans hp)).2.1
      · rwa [Sched.Place, if_neg hv] at hhere
    exact ⟨a, h.advance (hi (by simp)) hrun hfree⟩

theorem Follows.step {e : WaitEvent} (h : Follows c a) (hen : c.Enabled e)
    (hs : c.step alg e = some c') : ∃ b, Follows c' b := by
  cases e with
  | timerTick =>
      obtain ⟨k, hk, rfl⟩ := Option.map_eq_some_iff.mp hs
      exact h.interrupt (.inl rfl) hk
  | uartIrq mis fifo =>
      obtain rfl := Option.some.inj hs
      exact h.interrupt (.inr ⟨mis, fifo, rfl⟩) rfl
  | kernel op =>
      obtain ⟨k, hk, rfl⟩ := Option.map_eq_some_iff.mp hs
      exact h.kernel hen.1 hen.2.1 hen.2.2 hk
  | call pid =>
      obtain rfl := Option.some.inj hs
      have hhere := h.waits.here
      rw [← h.here_eq, hen.2] at hhere
      have hrun : ∀ pid, c.here ≠ .arm pid ∧ c.here ≠ .sleep pid := by
        rw [hen.2]; exact fun _ => ⟨nofun, nofun⟩
      exact ⟨a, h.advance hen.1 hrun hhere⟩
  | statement => exact h.statement hs

theorem follows_boot (timer : Nat → BitVec 32) : Follows (.boot timer) (boot timer).abstract := by
  have hrep := represents_boot timer
  refine ⟨hrep.refines, ⟨hrep.law, rfl, nofun, fun _ _ => rfl, fun p _ => ?_⟩, Nat.one_pos,
    fun hi => absurd rfl hi⟩
  exact ⟨nofun, .inl rfl⟩

theorem Calls.Reachable.follows (h : c.Reachable alg) : ∃ a, Follows c a := by
  refine Transition.Reachable.invariant (P := fun c => ∃ a, Follows c a) h ?_ ?_
  · rintro _ ⟨timer, rfl⟩
    exact ⟨_, follows_boot timer⟩
  · rintro c c' ⟨a, ha⟩ ⟨e, hen, hs⟩
    exact ha.step hen hs

/-- The loop of an exit leads from `s` to `t`: it wakes those who wait for the current
process, each once, and nobody else. -/
structure ReleasesWaiters (s t : KState) : Prop where
  waiter : ∀ w, s.processes w = some w → (s.pcb w).toProc.waitsFor s.currentProcess = true →
    (∀ l, w ∉ s.contents l) ∧ (t.pcb w).state = .ready ∧ (t.pcb w).pidToWait = -1 ∧
      ∃ l, (t.contents l).count w = 1 ∧ ∀ l' ≠ l, (t.contents l').count w = 0
  other : ∀ w, s.processes w = some w → w ≠ s.currentProcess →
    (s.pcb w).toProc.waitsFor s.currentProcess = false →
    (t.pcb w).state = (s.pcb w).state ∧ ∀ l, (t.contents l).count w = (s.contents l).count w
  dead : (t.pcb s.currentProcess).state = .zombie ∧ ∀ l, s.currentProcess ∉ t.contents l

theorem Represents.releasesWaiters (h : Represents s a) (alg : Algorithm)
    (hinit : (a.proc initProcess).state ≠ .waitingAnotherProcess) :
    ReleasesWaiters s (retireCurrent alg s) := by
  have href := h.refines.retireCurrent alg (h.law.givenUp h.current .exit)
  have hlaw : (a.retireCurrent alg).Law :=
    ((h.law.givenUp h.current .exit).calm_retireCurrent alg).law
  have hn : (a.retireCurrent alg).nProcesses = a.nProcesses :=
    h.law.nProcesses_retireCurrent h.current
  have hqueue := href.queueLaw hlaw
  have hproc : ∀ {w}, w < a.nProcesses → _ := fun hw => h.law.proc_retire alg h.current hw
  refine ⟨fun w hw hwaits => ?_, fun w hw hne hwaits => ?_, ?_⟩
  · have hlt := h.registered_iff.mp hw
    rw [h.refines.proc, h.refines.currentProcess] at hwaits
    have hstate := (Sched.waitsFor_iff.mp hwaits).1
    have hw0 : w ≠ initProcess := fun e => hinit (e ▸ hstate)
    have hself : w ≠ a.currentProcess := by
      rintro rfl
      rw [← Sched.current, h.current.running hw0] at hstate
      cases hstate
    have hone := hproc hlt
    rw [if_neg hself, if_pos hwaits, ← href.state_eq, ← href.proc] at hone
    have hreg : (retireCurrent alg s).processes w = some w :=
      (href.registered_iff hlaw).mpr (hn.symm ▸ hlt)
    refine ⟨fun l hl => ?_, hone.1, hone.2, (hqueue.ready_iff w hw0 hreg).mp hone.1⟩
    rw [h.contents_eq] at hl
    rw [(h.law.queued l w hl).2.2] at hstate
    cases hstate
  · have hlt := h.registered_iff.mp hw
    rw [h.refines.currentProcess] at hne
    rw [h.refines.proc, h.refines.currentProcess] at hwaits
    have hone := hproc hlt
    rw [if_neg hne, if_neg (by rw [hwaits]; exact Bool.false_ne_true), ← href.state_eq,
      ← h.refines.state_eq] at hone
    refine ⟨hone.1, fun l => ?_⟩
    rw [href.contents_eq hlaw, h.contents_eq]
    have hmem := h.law.mem_retireCurrent alg h.current hwaits hne l
    rw [(hlaw.nodup l).count, (h.law.nodup l).count]
    exact if_congr hmem rfl rfl
  · have hone := hproc h.current.registered
    rw [if_pos rfl] at hone
    rw [h.refines.currentProcess, href.state_eq]
    refine ⟨hone.1, fun l hl => ?_⟩
    rw [href.contents_eq hlaw] at hl
    have hready := (hlaw.queued l _ hl).2.2
    rw [hone.1] at hready
    cases hready

/-- Where `syscall_wait` returns `0`, the process it waited for is dead, and an exit wakes
exactly the processes that wait for it. -/
theorem waitSound (h : c.Reachable alg) :
    (∀ pid, c.here = .leave pid 0 → ∃ d, searchProcess c.kernel pid = some d ∧ (d : Int) = pid ∧
      (c.kernel.pcb d).state = .zombie) ∧
    (c.Enabled (.kernel .exit) → ReleasesWaiters c.kernel (retireCurrent alg c.kernel)) := by
  obtain ⟨a, ha⟩ := h.follows
  refine ⟨fun pid hp => ?_, fun hen => ?_⟩
  · obtain ⟨_, _, d, hd, rfl, hz⟩ := ha.waits.dead (ha.here_eq.symm.trans hp)
    refine ⟨d, ?_, rfl, (ha.refines.state_eq d).trans hz⟩
    rw [ha.refines.searchProcess ha.waits.placed.law, Sched.search,
      if_pos ⟨Int.natCast_nonneg d, Int.ofNat_lt.mpr hd⟩, Int.toNat_natCast]
  · exact (ha.represents hen.2.1).releasesWaiters alg ha.waits.placed.init_free.1

/-- A run that the evaluator takes to a state with the property `P`. -/
theorem Calls.exists_run (alg : Algorithm) (es : List WaitEvent) (P : Calls → Prop)
    [DecidablePred P] (h : (Transition.exec (fun c e => if c.Enabled e then c.step alg e else none)
      es (.boot fun _ => 0)).any (P ·) = true) :
    ∃ c, Transition.exec (fun c e => if c.Enabled e then Calls.step alg c e else none) es
      (.boot fun _ => 0) = some c ∧ c.Reachable alg ∧ P c := by
  obtain ⟨c, hc, hP⟩ := (Option.any_eq_true _ _).mp h
  refine ⟨c, hc, ⟨_, ⟨_, rfl⟩, Transition.run_exec (fun c e c' he => ?_) hc⟩, of_decide_eq_true hP⟩
  obtain ⟨hen, hs⟩ := Option.ite_none_right_eq_some.mp he
  exact ⟨e, hen, hs⟩

end Code

/-- A parent waits for its child, with ticks between its statements. -/
def waitForChild : List WaitEvent :=
  [.kernel (.copyProcess true), .timerTick, .kernel (.copyProcess true), .call 2, .statement,
    .timerTick, .statement, .timerTick, .statement, .timerTick, .statement, .timerTick, .statement]

/-- The child exits, and the parent is in front of its `return 0`. -/
theorem waitSound_child :
    (∃ c, Transition.exec (fun c e => if c.Enabled e then Calls.step .roundRobin c e else none)
        waitForChild (.boot fun _ => 0) = some c ∧ c.kernel.currentProcess = 2 ∧
      ReleasesWaiters c.kernel (retireCurrent .roundRobin c.kernel)) ∧
    ∃ c, Transition.exec (fun c e => if c.Enabled e then Calls.step .roundRobin c e else none)
        (waitForChild ++ [.kernel .exit]) (.boot fun _ => 0) = some c ∧ c.here = .leave 2 0 ∧
      ∃ d, searchProcess c.kernel 2 = some d ∧ (d : Int) = 2 ∧
        (c.kernel.pcb d).state = .zombie := by
  obtain ⟨c, hc, hreach, hcur, hen⟩ := Calls.exists_run .roundRobin waitForChild
    (fun c => c.kernel.currentProcess = 2 ∧ c.Enabled (.kernel .exit)) (by decide +kernel)
  obtain ⟨c', hc', hreach', hhere⟩ := Calls.exists_run .roundRobin
    (waitForChild ++ [.kernel .exit]) (fun c => c.here = .leave 2 0) (by decide +kernel)
  exact ⟨⟨c, hc, hcur, (waitSound hreach).2 hen⟩, c', hc', hhere, (waitSound hreach').1 2 hhere⟩

end Demoos
