import Demoos.Scheduler.Signals

/-!
# Waiting for another process

`exit_process` wakes whoever waits for the process that exits.  The other way
to die is the KILL branch of `handle_process_signals`, and that branch wakes
nobody.  So a waiter is stranded exactly when a decision carries out a kill on
the process it waits for.  `KillSafe` says that an operation does not do this,
and a run of operations that do not strands nobody.
-/

namespace Demoos

open Relation (ReflTransGen)

/-- No process waits for a dead one, and init waits for nobody. -/
structure Unstranded (s : KState) : Prop where
  initAwake : (s.pcb initProcess).state ≠ .waitingAnotherProcess
  alive : ∀ w p, s.processes w = some w → s.processes p = some p →
    (s.pcb w).state = .waitingAnotherProcess → (s.pcb w).pidToWait = p →
    (s.pcb p).state ≠ .zombie

/-- The processes whose signals the decision of an operation handles. -/
def examined (alg : Algorithm) (s : KState) (op : Op) : List Pid :=
  if decides alg s op then
    (((before alg s op).abstract.contest alg).select alg).elim [] Sched.Choice.visited
  else []

/-- The operation carries out no kill on a process that another one waits for. -/
def KillSafe (alg : Algorithm) (s : KState) (op : Op) : Prop :=
  ∀ p ∈ examined alg s op, ((before alg s op).pcb p).pending signalKill = true →
    ∀ w < (before alg s op).nProcesses, ((before alg s op).pcb w).toProc.waitsFor p = false

instance (alg : Algorithm) (s : KState) (op : Op) : Decidable (KillSafe alg s op) := by
  unfold KillSafe
  infer_instance

/-- One operation of a run that carries out no such kill. -/
def KillSafeNext (alg : Algorithm) (s s' : KState) : Prop :=
  ∃ op : Op, op.Enabled s.toGlobals ∧ KillSafe alg s op ∧ step alg s op = some s'

namespace Sched

variable {a b : Sched} {alg : Algorithm} {c : Choice} {op : Op} {p w : Pid}

structure Unstranded (a : Sched) : Prop where
  initAwake : (a.proc initProcess).state ≠ .waitingAnotherProcess
  alive : ∀ w p, w < a.nProcesses → p < a.nProcesses →
    (a.proc w).waitsFor p = true → (a.proc p).state ≠ .zombie

theorem waitsFor_iff {b : Proc} :
    b.waitsFor p = true ↔ b.state = .waitingAnotherProcess ∧ b.pidToWait = p := by
  simp [Proc.waitsFor]

/-! ## Up to the decision -/

/-- Who waits after a calm change has waited before it, for the same process. -/
theorem Calm.waitsFor (h : a.Calm b) (hw : w < b.nProcesses)
    (hwait : (b.proc w).waitsFor p = true) :
    w < a.nProcesses ∧ (a.proc w).waitsFor p = true := by
  obtain ⟨hs, hp⟩ := waitsFor_iff.mp hwait
  rcases Nat.lt_or_ge w a.nProcesses with hlt | hge
  · rcases (h.proc w hlt).state with ⟨hs', hp'⟩ | ⟨_, hready⟩
    · exact ⟨hlt, waitsFor_iff.mpr ⟨hs' ▸ hs, hp' ▸ hp⟩⟩
    · rw [hs] at hready
      exact absurd hready (by decide)
  · have hready := h.fresh w hge hw
    rw [hs] at hready
    exact absurd hready (by decide)

/-- Nobody dies in a calm change. -/
theorem Calm.zombie (h : a.Calm b) (hp : p < b.nProcesses) (hz : (b.proc p).state = .zombie) :
    p < a.nProcesses ∧ (a.proc p).state = .zombie := by
  rcases Nat.lt_or_ge p a.nProcesses with hlt | hge
  · rcases (h.proc p hlt).state with ⟨hs, _⟩ | ⟨_, hready⟩
    · exact ⟨hlt, hs ▸ hz⟩
    · rw [hz] at hready
      exact absurd hready (by decide)
  · have hready := h.fresh p hge hp
    rw [hz] at hready
    exact absurd hready (by decide)

theorem Calm.initAwake (h : a.Calm b) (ha : a.Law)
    (hi : (a.proc initProcess).state ≠ .waitingAnotherProcess) :
    (b.proc initProcess).state ≠ .waitingAnotherProcess := by
  rcases (h.proc initProcess ha.initRegistered).state with ⟨hs, _⟩ | ⟨_, hs⟩
  · rw [hs]; exact hi
  · rw [hs]; decide

theorem Calm.unstranded (h : a.Calm b) (ha : a.Law) (hu : a.Unstranded) : b.Unstranded where
  initAwake := h.initAwake ha hu.initAwake
  alive w p hw hp hwait hz := by
    obtain ⟨hw, hwait⟩ := h.waitsFor hw hwait
    obtain ⟨hp, hz⟩ := h.zombie hp hz
    exact hu.alive w p hw hp hwait hz

theorem search_eq_some {pid : Int} {d : Pid} (h : a.search pid = some d) : pid = (d : Int) := by
  unfold search at h
  split at h
  next hc =>
    rw [← Option.some.inj h, Int.toNat_of_nonneg hc.1]
  next => exact absurd h (by simp)

theorem blocking_state (why : Blocking) :
    why.state ≠ .waitingAnotherProcess ∧ why.state ≠ .zombie := by
  cases why with
  | _ => exact ⟨by decide, by decide⟩

theorem initAwake_givenUp (h : (a.proc initProcess).state ≠ .waitingAnotherProcess)
    (hop : op.Enabled a.toGlobals) :
    ((a.givenUp op).proc initProcess).state ≠ .waitingAnotherProcess := by
  cases op with
  | block why | wait pid | exit => rwa [proc_givenUp_of_ne _ (Ne.symm hop)]
  | _ => exact h

/-- A call that gives up the CPU, other than `exit`, strands nobody. -/
theorem Unstranded.givenUp (h : a.Unstranded) (hop : op.Enabled a.toGlobals) (he : op ≠ .exit) :
    (a.givenUp op).Unstranded := by
  refine ⟨initAwake_givenUp h.initAwake hop, ?_⟩
  cases op with
  | block why =>
      intro w p hw hp hwait hz
      simp only [Sched.givenUp, block, proc_modify] at hwait hz
      split at hwait
      next =>
        exact (blocking_state why).1 (waitsFor_iff.mp hwait).1
      next =>
        split at hz
        next => exact (blocking_state why).2 hz
        next => exact h.alive w p hw hp hwait hz
  | wait pid =>
      rw [Sched.givenUp]
      split
      next hb =>
        intro w p hw hp hwait hz
        simp only [waitFor, proc_modify] at hwait hz
        split at hz
        next => exact absurd hz (by simp)
        next =>
          split at hwait
          next =>
            have hpid : pid = (p : Int) := (waitsFor_iff.mp hwait).2
            unfold blocksOn at hb
            split at hb
            next => exact absurd hb (by simp)
            next d hd =>
              have hdp : d = p := Int.ofNat.inj ((search_eq_some hd).symm.trans hpid)
              rw [hdp, hz] at hb
              exact absurd hb (by decide)
          next => exact h.alive w p hw hp hwait hz
      next => exact h.alive
  | exit => exact absurd rfl he
  | _ => exact h.alive

theorem waitsFor_preemptEnable (a : Sched) (w p : Pid) :
    (a.preemptEnable.proc w).waitsFor p = (a.proc w).waitsFor p :=
  field_modify a _ w (fun b => { b with preemptDisabled := b.preemptDisabled - 1 })
    (Proc.waitsFor p) fun _ => rfl

/-- Nobody waits for a process that has exited. -/
theorem Law.exit_waitsFor (h : a.Law) (hc : a.Current) (hw : w < a.nProcesses) :
    ((a.before alg .exit).proc w).waitsFor a.currentProcess = false := by
  have hlaw := h.dying hc
  rw [before, field_closeBurst _ w (Proc.waitsFor a.currentProcess) (fun _ _ => rfl) fun _ => rfl,
    retireCurrent, waitsFor_preemptEnable,
    proc_wakeAll alg hlaw (waker_waitsFor a.preemptDisable.die.currentProcess) maxProcesses w]
  split
  next => rfl
  next hn =>
    rw [Bool.eq_false_iff]
    exact fun hwait => hn ⟨Nat.lt_of_lt_of_le hw h.bound, hw, hwait⟩

theorem Law.unstranded_before (h : a.Law) (alg : Algorithm) (hc : a.Current)
    (hop : op.Enabled a.toGlobals)
    (ha : a.Unstranded) : (a.before alg op).Unstranded := by
  have hcalm := h.calm_before alg hc hop
  by_cases he : op = .exit
  · subst he
    refine ⟨hcalm.initAwake (h.givenUp hc _) (initAwake_givenUp ha.initAwake hop), ?_⟩
    intro w p hw hp hwait hz
    obtain ⟨hw, hwait'⟩ := hcalm.waitsFor hw hwait
    obtain ⟨hp, hz⟩ := hcalm.zombie hp hz
    simp only [Sched.givenUp, die, proc_modify] at hwait' hz
    split at hwait'
    next => exact absurd (waitsFor_iff.mp hwait').1 (by simp)
    next =>
      split at hz
      next e =>
        rw [e, h.exit_waitsFor hc hw] at hwait
        exact absurd hwait (by simp)
      next => exact ha.alive w p hw hp hwait' hz
  · exact hcalm.unstranded (h.givenUp hc _) (ha.givenUp hop he)

/-! ## The decision -/

/-- The state a decision leaves a process in. -/
theorem Decides.state_cases (h : Decides alg a b c) (p : Pid) :
    ((b.proc p).state = .running ∨ (b.proc p).state = .ready ∨ (b.proc p).state = .stopped) ∨
      ((b.proc p).state = .zombie ∧ p ∈ c.visited ∧ (a.proc p).pending signalKill = true) ∨
      (b.proc p).state = (a.proc p).state := by
  have hstate : ∀ st, ((a.contest alg).commit c |>.proc p).state = st →
      (b.proc p).state = .running ∨ (b.proc p).state = .ready ∨ (b.proc p).state = st := by
    rintro st rfl
    rw [h.result, state_dispatch]
    split
    next => exact .inl rfl
    next =>
      split
      next => exact .inr (.inl rfl)
      next => exact .inr (.inr rfl)
  have hkill : ((a.contest alg).proc p).pending signalKill = (a.proc p).pending signalKill :=
    field_contest a alg p (·.pending signalKill) (fun _ _ => rfl) fun _ _ => rfl
  by_cases hv : p ∈ c.visited
  · have hcommit : (((a.contest alg).commit c).proc p).state =
        ((a.contest alg).proc p).handled.state := by
      rw [proc_commit, if_pos hv]
    rw [Proc.state_handled, hkill, (h.ready_of_visited hv).1] at hcommit
    split at hcommit
    next hk =>
      rcases hstate _ hcommit with hs | hs | hs
      · exact .inl (.inl hs)
      · exact .inl (.inr (.inl hs))
      · exact .inr (.inl ⟨hs, hv, hk⟩)
    next =>
      split at hcommit <;> rcases hstate _ hcommit with hs | hs | hs <;> simp [hs]
  · have hcommit : (((a.contest alg).commit c).proc p).state = ((a.contest alg).proc p).state := by
      rw [proc_commit, if_neg hv]
    rw [state_contest] at hcommit
    split at hcommit <;> rcases hstate _ hcommit with hs | hs | hs <;> simp [hs]

theorem Decides.pidToWait (h : Decides alg a b c) (p : Pid) :
    (b.proc p).pidToWait = (a.proc p).pidToWait := by
  rw [h.result, field_dispatch _ _ _ Proc.pidToWait (fun _ _ => rfl) fun _ _ => rfl,
    ← field_contest a alg p Proc.pidToWait (fun _ _ => rfl) fun _ _ => rfl, proc_commit]
  split
  next => exact Proc.pidToWait_handled _
  next => rfl

/-- A process that waits after a decision has waited before it. -/
theorem Decides.waitsFor (h : Decides alg a b c) (hwait : (b.proc w).waitsFor p = true) :
    (a.proc w).waitsFor p = true := by
  obtain ⟨hs, hp⟩ := waitsFor_iff.mp hwait
  rw [h.pidToWait] at hp
  have hcases := h.state_cases w
  rw [hs] at hcases
  rcases hcases with hn | hn | hn
  · exact absurd hn (by decide)
  · exact absurd hn.1 (by decide)
  · exact waitsFor_iff.mpr ⟨hn.symm, hp⟩

/-- A decision that carries out no kill on an awaited process strands nobody. -/
theorem Decides.unstranded (h : Decides alg a b c) (ha : a.Unstranded)
    (hsafe : ∀ p ∈ c.visited, (a.proc p).pending signalKill = true →
      ∀ w, w < a.nProcesses → (a.proc w).waitsFor p = false) : b.Unstranded where
  initAwake hi := by
    have hcases := h.state_cases initProcess
    rw [hi] at hcases
    rcases hcases with hn | hn | hn
    · exact absurd hn (by decide)
    · exact absurd hn.1 (by decide)
    · exact ha.initAwake hn.symm
  alive w p hw hp hwait hz := by
    rw [h.nProcesses] at hw hp
    have hwait' := h.waitsFor hwait
    have hcases := h.state_cases p
    rw [hz] at hcases
    rcases hcases with hn | ⟨_, hv, hk⟩ | hs
    · exact absurd hn (by decide)
    · rw [hsafe p hv hk w hw] at hwait'
      exact absurd hwait' (by simp)
    · exact ha.alive w p hw hp hwait' hs.symm

/-- A decision that carries out a kill on an awaited process strands its
waiter. -/
theorem Decides.stranded (h : Decides alg a b c) (ha : a.Unstranded) (hv : p ∈ c.visited)
    (hk : (a.proc p).pending signalKill = true) (hw : w < a.nProcesses)
    (hwait : (a.proc w).waitsFor p = true) : ¬ b.Unstranded := by
  intro hb
  obtain ⟨_, hi⟩ := h.ready_of_visited hv
  obtain ⟨l, hl⟩ := h.sound.visited p hv
  have hlt : p < a.nProcesses := by
    have := (h.contest.queued l p hl).2.1
    rwa [toGlobals_contest] at this
  obtain ⟨hs, hp⟩ := waitsFor_iff.mp hwait
  have hinit : w ≠ initProcess := fun e => ha.initAwake (e ▸ hs)
  obtain ⟨hs', hp', _⟩ := h.bystander hinit (by rw [hs]; decide) (by rw [hs]; decide)
  refine hb.alive w p (h.nProcesses ▸ hw) (h.nProcesses ▸ hlt)
    (waitsFor_iff.mpr ⟨hs'.trans hs, hp'.trans hp⟩) ?_
  exact h.kills hi hv hk

/-- An operation strands nobody exactly when its decision carries out no kill on
an awaited process. -/
theorem Law.unstranded_step (h : a.Law) (hc : a.Current) (hop : op.Enabled a.toGlobals)
    (ha : a.Unstranded) (hb : a.step alg op = some b) :
    b.Unstranded ↔ ∀ c, a.decides alg op = true →
      ((a.before alg op).contest alg).select alg = some c → ∀ p ∈ c.visited,
      ((a.before alg op).proc p).pending signalKill = true →
      ∀ w < (a.before alg op).nProcesses, ((a.before alg op).proc w).waitsFor p = false := by
  have hbefore := h.unstranded_before alg hc hop ha
  rcases h.step_cases hc hop hb with ⟨hd, c, hdec⟩ | ⟨hd, rfl⟩
  · constructor
    · intro hu c' _ hc' p hv hk w hw
      obtain rfl := Option.some.inj (hc'.symm.trans hdec.selected)
      rw [Bool.eq_false_iff]
      exact fun hwait => hdec.stranded hbefore hv hk hw hwait hu
    · exact fun hsafe => hdec.unstranded hbefore (hsafe c hd hdec.selected)
  · refine ⟨fun _ c hd' => ?_, fun _ => hbefore⟩
    rw [hd] at hd'
    exact absurd hd' (by simp)

end Sched

/-! ## Waiters in the runs of the code -/

section Runs

variable {alg : Algorithm} {s s' : KState} {a : Sched} {op : Op}

theorem Represents.unstranded_iff (h : Represents s a) : Unstranded s ↔ a.Unstranded := by
  constructor
  · rintro ⟨hi, halive⟩
    refine ⟨by rw [← h.refines.state_eq]; exact hi, fun w p hw hp hwait => ?_⟩
    obtain ⟨hs, hpid⟩ := Sched.waitsFor_iff.mp hwait
    rw [← h.refines.state_eq]
    refine halive w p (h.registered_iff.mpr hw) (h.registered_iff.mpr hp) ?_ ?_
    · rw [h.refines.state_eq]; exact hs
    · exact (congrArg Proc.pidToWait (h.refines.proc w)).trans hpid
  · rintro ⟨hi, halive⟩
    refine ⟨by rw [h.refines.state_eq]; exact hi, fun w p hw hp hs hpid => ?_⟩
    rw [h.refines.state_eq]
    refine halive w p (h.registered_iff.mp hw) (h.registered_iff.mp hp) ?_
    refine Sched.waitsFor_iff.mpr ⟨?_, ?_⟩
    · rw [← h.refines.state_eq]; exact hs
    · exact (congrArg Proc.pidToWait (h.refines.proc w)).symm.trans hpid

theorem Represents.examined_iff (h : Represents s a) (hop : op.Enabled a.toGlobals) {p : Pid} :
    p ∈ examined alg s op ↔ a.decides alg op = true ∧
      ∃ c, ((a.before alg op).contest alg).select alg = some c ∧ p ∈ c.visited := by
  have hbefore := (h.refines.before alg h.law h.current op).abstract_eq
    (h.law.calm_before alg h.current hop).law
  rw [examined, h.refines.decides alg h.law, hbefore]
  split
  next hd =>
    cases hc : ((a.before alg op).contest alg).select alg <;> simp [hd]
  next hd => simp [hd]

theorem Represents.unstranded_step (h : Represents s a) (hop : op.Enabled s.toGlobals)
    (hu : Unstranded s) (hs : Demoos.step alg s op = some s') :
    Unstranded s' ↔ KillSafe alg s op := by
  have hop' : op.Enabled a.toGlobals := by rw [← h.refines.globals]; exact hop
  obtain ⟨b, hb, hrep⟩ := h.step hop hs
  have href := h.refines.before alg h.law h.current op
  have hpending : ∀ p, ((Demoos.before alg s op).pcb p).pending signalKill =
      ((a.before alg op).proc p).pending signalKill :=
    fun p => congrArg (·.pending signalKill) (href.proc p)
  have hwait : ∀ w p, ((Demoos.before alg s op).pcb w).toProc.waitsFor p =
      ((a.before alg op).proc w).waitsFor p :=
    fun w p => congrArg (·.waitsFor p) (href.proc w)
  rw [hrep.unstranded_iff, h.law.unstranded_step h.current hop' (h.unstranded_iff.mp hu) hb,
    KillSafe]
  simp only [h.examined_iff hop', href.nProcesses, hpending, hwait]
  constructor
  · rintro hsafe p ⟨hd, c, hc, hv⟩
    exact hsafe c hd hc p hv
  · intro hsafe c hd hc p hv
    exact hsafe p ⟨hd, c, hc, hv⟩

end Runs

/-- A run that carries out no kill on an awaited process strands nobody, and an
operation that carries one out does. -/
theorem unstranded_of_killSafe {alg : Algorithm} {s : KState}
    (h : Transition.Reachable (fun s => Start s ∧ Unstranded s) (KillSafeNext alg) s) :
    Unstranded s ∧ ∀ (op : Op) (s' : KState), op.Enabled s.toGlobals →
      step alg s op = some s' → (Unstranded s' ↔ KillSafe alg s op) := by
  have hinv : ∃ a, Represents s a ∧ Unstranded s := by
    refine h.invariant (P := fun s => ∃ a, Represents s a ∧ Unstranded s)
      (fun s hs => ⟨_, hs.1.represents, hs.2⟩) ?_
    rintro s t ⟨a, ha, hu⟩ ⟨op, hop, hsafe, ht⟩
    obtain ⟨b, _, hb⟩ := ha.step hop ht
    exact ⟨b, hb, (ha.unstranded_step hop hu ht).mpr hsafe⟩
  obtain ⟨a, ha, hu⟩ := hinv
  exact ⟨hu, fun op s' hop hs => ha.unstranded_step hop hu hs⟩

/-- A parent waits for its child, and the child exits. -/
def waitAndExit : List Op :=
  [.copyProcess true, .timerTick, .copyProcess true, .wait 2, .exit]

theorem unstranded_waitAndExit : ∃ s, Transition.exec (fun s op =>
    if op.Enabled s.toGlobals ∧ KillSafe .roundRobin s op then step .roundRobin s op else none)
      waitAndExit (boot fun _ => 0) = some s ∧ Unstranded s := by
  obtain ⟨s, hs⟩ := Option.isSome_iff_exists.mp
    (by decide +kernel : (Transition.exec (fun s op =>
      if op.Enabled s.toGlobals ∧ KillSafe .roundRobin s op then step .roundRobin s op else none)
      waitAndExit (boot fun _ => 0)).isSome)
  have hrun : ReflTransGen (KillSafeNext .roundRobin) (boot fun _ => 0) s := by
    refine Transition.run_exec (fun s op t ht => ?_) hs
    obtain ⟨⟨hop, hsafe⟩, ht⟩ := Option.ite_none_right_eq_some.mp ht
    exact ⟨op, hop, hsafe, ht⟩
  refine ⟨s, hs, (unstranded_of_killSafe ⟨_, ⟨.boot _, ?_⟩, hrun⟩).1⟩
  refine ⟨by decide, fun w p _ _ hw => ?_⟩
  change ProcessState.unset = _ at hw
  exact absurd hw (by decide)

/-- A parent kills its child and then waits for it.  The decision that blocks the
parent carries out the kill. -/
theorem stranded_roundRobin : ∃ s, afterBoot .roundRobin [.copyProcess true, .timerTick,
    .copyProcess true, .sendSignal 2 signalKill, .wait 2] = some s ∧ Reachable .roundRobin s ∧
      ¬ Unstranded s := by
  obtain ⟨s, hs, hreach, hw, hp, hst, hpid, hz⟩ := exists_afterBoot .roundRobin
    [.copyProcess true, .timerTick, .copyProcess true, .sendSignal 2 signalKill, .wait 2]
    (fun s => s.processes 1 = some 1 ∧ s.processes 2 = some 2 ∧
      (s.pcb 1).state = .waitingAnotherProcess ∧ (s.pcb 1).pidToWait = (2 : Pid) ∧
      (s.pcb 2).state = .zombie) (by decide +kernel)
  exact ⟨s, hs, hreach, fun hu => hu.alive 1 2 hw hp hst hpid hz⟩

end Demoos
