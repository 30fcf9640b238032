import Demoos.Scheduler.Signals

/-!
# The life of a process

Many functions write the state of a process, and one of them writes
`PROCESS_RUNNING`.  An operation is followed here through its parts: up to the
decision, through the selection, and through the switch.  Outside of the switch
nobody begins to run, and a process that waits goes on waiting or becomes ready
(`Unswitched`).  The switch makes one ready process run and leaves the states of
the others alone, and only the current process runs when the operation is over
(`Sole`).

A run starts at boot or in a lawful state in which nobody but the current
process runs.
-/

namespace Demoos

open Relation (ReflTransGen)

/-! ## One decision -/

namespace Sched

variable {a b : Sched} {alg : Algorithm} {c : Choice} {op : Op} {p : Pid}

/-- Nobody but the current process runs. -/
def Sole (a : Sched) : Prop :=
  ∀ p, p < a.nProcesses → (a.proc p).state = .running → p = a.currentProcess

theorem Calm.sole (h : a.Calm b) (ha : a.Sole) : b.Sole := by
  intro p hp hs
  rcases Nat.lt_or_ge p a.nProcesses with hlt | hge
  · rw [h.currentProcess]
    rcases (h.proc p hlt).state with ⟨he, _⟩ | ⟨_, hready⟩
    · exact ha p hlt (he.symm.trans hs)
    · exact absurd (hready.symm.trans hs) (by decide)
  · exact absurd ((h.fresh p hge hp).symm.trans hs) (by decide)

theorem Sole.givenUp (ha : a.Sole) (op : Op) : (a.givenUp op).Sole := by
  intro p hp hs
  rw [toGlobals_givenUp] at hp ⊢
  by_cases hne : p = a.currentProcess
  · exact hne
  · rw [proc_givenUp_of_ne op hne] at hs
    exact ha p hp hs

theorem Law.sole_before (h : a.Law) (hc : a.Current) (hop : op.Enabled a.toGlobals)
    (ha : a.Sole) : (a.before alg op).Sole :=
  (h.calm_before alg hc hop).sole (ha.givenUp op)

theorem Decides.blocked (h : Decides alg a b c) (hb : (a.proc p).state.blocked = true) :
    (((a.contest alg).commit c).proc p).state = (a.proc p).state := by
  have hcontest : ((a.contest alg).proc p).state = (a.proc p).state := by
    rw [state_contest, if_neg]
    intro hn
    rw [hn.2.2] at hb
    exact absurd hb (by decide)
  have hv : p ∉ c.visited := by
    intro hv
    rw [← hcontest, (h.ready_of_visited hv).1] at hb
    exact absurd hb (by decide)
  rw [state_commit, if_neg hv, hcontest]

/-- Behind the selection nobody runs, unless it is init. -/
theorem Decides.not_running (h : Decides alg a b c) (ha : a.Sole) (hi : p ≠ initProcess)
    (hp : p < a.nProcesses) : (((a.contest alg).commit c).proc p).state ≠ .running := by
  rw [state_commit]
  split
  next hv =>
    have hready := (h.ready_of_visited hv).1
    by_cases hb : ((a.contest alg).proc p).barred = true
    · exact (Proc.state_handled_of_barred hb).2
    · rw [Proc.state_handled_of_not_barred (by simpa using hb), hready]
      decide
  next =>
    rw [state_contest]
    split
    next => decide
    next hn => exact fun hs => hn ⟨ha p hp hs, hi, hs⟩

theorem Decides.ready_next (h : Decides alg a b c) (hi : c.target ≠ initProcess) :
    (((a.contest alg).commit c).proc c.target).state = .ready := by
  have hcur : b.currentProcess = c.target := by rw [h.result]; rfl
  obtain ⟨hv, hb⟩ := h.visited_target (hcur ▸ hi)
  rw [hcur] at hv hb
  rw [state_commit, if_pos hv, Proc.state_handled_of_not_barred hb]
  exact (h.ready_of_visited hv).1

theorem Decides.running (h : Decides alg a b c) : b.current.state = .running := by
  have hcur : b.currentProcess = c.target := by rw [h.result]; rfl
  rw [Sched.current, hcur, h.result, state_dispatch, if_pos rfl]

theorem Decides.sole (h : Decides alg a b c) (ha : a.Sole) : b.Sole := by
  intro p hp hs
  have hcur : b.currentProcess = c.target := by rw [h.result]; rfl
  rw [h.nProcesses] at hp
  by_contra hne
  rw [h.result, state_dispatch, if_neg (hcur ▸ hne)] at hs
  split at hs
  next => exact absurd hs (by decide)
  next hn =>
    by_cases hi : p = initProcess
    · -- init runs on only if it was the current process
      have hv : p ∉ c.visited := fun hv => (h.ready_of_visited hv).2 hi
      have hcontest := hs
      rw [state_commit, if_neg hv, state_contest, if_neg fun hn => hn.2.1 hi] at hcontest
      refine hn ⟨?_, hs⟩
      rw [toGlobals_contest]
      exact ha p hp hcontest
    · exact h.not_running ha hi hp hs

theorem Law.sole_step (h : a.Law) (hc : a.Current) (hop : op.Enabled a.toGlobals)
    (hb : a.step alg op = some b) (ha : a.Sole) : b.Sole := by
  have hbefore : (a.before alg op).Sole := h.sole_before hc hop ha
  rcases h.step_cases hc hop hb with ⟨_, c, hd⟩ | ⟨_, rfl⟩
  · exact hd.sole hbefore
  · exact hbefore

/-- The current process, init too, goes on running without a decision. -/
theorem Law.running_step (h : a.Law) (hc : a.Current) (hop : op.Enabled a.toGlobals)
    (hb : a.step alg op = some b) (hr : a.decides alg op = true ∨ a.current.state = .running) :
    b.current.state = .running := by
  rcases h.step_cases hc hop hb with ⟨_, c, hd⟩ | ⟨hnd, rfl⟩
  · exact hd.running
  · have hcalm := h.calm_before alg hc hop
    rw [givenUp_eq hnd] at hcalm
    have hrun := hr.resolve_left (by rw [hnd]; exact Bool.false_ne_true)
    rw [Sched.current, hcalm.currentProcess]
    rcases (hcalm.proc _ hc.registered).state with ⟨hs, _⟩ | ⟨hbl, _⟩
    · exact hs.trans hrun
    · rw [← current, hrun] at hbl
      exact absurd hbl (by decide)

end Sched

/-! ## The parts of an operation -/

/-- A part of an operation without a switch, for the processes registered before
it. -/
structure Unswitched (s t : KState) : Prop where
  running : ∀ p, p ≠ initProcess → s.processes p = some p →
    (t.pcb p).state = .running → (s.pcb p).state = .running
  blocked : ∀ p, p ≠ initProcess → s.processes p = some p → (s.pcb p).state.blocked = true →
    (t.pcb p).state = (s.pcb p).state ∨ (t.pcb p).state = .ready

/-- A selection: nobody runs behind it, and nobody who waits is touched. -/
structure Selected (s u : KState) : Prop where
  running : ∀ p, p ≠ initProcess → s.processes p = some p → (u.pcb p).state ≠ .running
  blocked : ∀ p, p ≠ initProcess → s.processes p = some p → (s.pcb p).state.blocked = true →
    (u.pcb p).state = (s.pcb p).state

/-- The switch to `next` that ends a decision, from the state in which the pick
function calls it. -/
structure Switch (u t : KState) (next : Pid) : Prop where
  eq : t = handOver (next, u)
  ready : next ≠ initProcess → (u.pcb next).state = .ready
  others : ∀ p, p ≠ initProcess → u.processes p = some p → p ≠ next →
    (t.pcb p).state = (u.pcb p).state

/-- An operation from `s` to `t` through its parts. -/
structure Lives (alg : Algorithm) (s : KState) (op : Op) (t : KState) : Prop where
  before : Unswitched s (before alg s op)
  born : ∀ p, s.processes p ≠ some p → (Demoos.before alg s op).processes p = some p →
    ((Demoos.before alg s op).pcb p).state = .ready
  idle : decides alg s op = false → t = Demoos.before alg s op
  decision : decides alg s op = true → ∃ next u,
    alg.select (Demoos.before alg s op) = some (next, u) ∧
      Selected (Demoos.before alg s op) u ∧ Switch u t next

structure LifeCycle (alg : Algorithm) (s : KState) : Prop where
  sole : ∀ p, s.processes p = some p → (s.pcb p).state = .running → p = s.currentProcess
  dispatched : ∀ op t, op.Enabled s.toGlobals → decides alg s op = true → step alg s op = some t →
    t.current.state = .running
  runs : s.current.state = .running → ∀ t, ReflTransGen (Next alg) s t → t.current.state = .running
  lives : ∀ op t, op.Enabled s.toGlobals → step alg s op = some t → Lives alg s op t
  dead : ∀ p, p ≠ initProcess → s.processes p = some p → (s.pcb p).state = .zombie →
    ∀ t, ReflTransGen (Next alg) s t → (t.pcb p).state = .zombie

/-- The states of the runs that begin with nobody but the current process
running. -/
def LifeReachable (alg : Algorithm) : KState → Prop :=
  Transition.Reachable (fun s => Start s ∧
    ∀ p, s.processes p = some p → (s.pcb p).state = .running → p = s.currentProcess) (Next alg)

namespace Represents

variable {s t : KState} {a : Sched} {alg : Algorithm} {op : Op}

theorem sole_iff (h : Represents s a) : a.Sole ↔
    ∀ p, s.processes p = some p → (s.pcb p).state = .running → p = s.currentProcess := by
  simp only [h.registered_iff, h.refines.state_eq, h.refines.currentProcess]
  rfl

theorem unswitched_before (h : Represents s a) (hop : op.Enabled s.toGlobals) :
    Unswitched s (Demoos.before alg s op) := by
  have hop' : op.Enabled a.toGlobals := by rw [← h.refines.globals]; exact hop
  have hbefore := h.refines.before alg h.law h.current op
  have hcalm := h.law.calm_before alg h.current hop'
  have hstate : ∀ p, p < a.nProcesses →
      ((a.before alg op).proc p).state = ((a.givenUp op).proc p).state ∨
        ((a.givenUp op).proc p).state.blocked = true ∧
          ((a.before alg op).proc p).state = .ready := by
    intro p hp
    exact (hcalm.proc p (by rw [Sched.toGlobals_givenUp]; exact hp)).state.imp_left And.left
  refine ⟨fun p hi hp hs => ?_, fun p hi hp hb => ?_⟩
  · rw [hbefore.state_eq] at hs
    rw [h.refines.state_eq]
    by_cases hne : p = a.currentProcess
    · subst hne
      exact h.current.running hi
    · rcases hstate p (h.registered_iff.mp hp) with he | ⟨_, hready⟩
      · rw [← Sched.proc_givenUp_of_ne op hne]
        exact he.symm.trans hs
      · exact absurd (hready.symm.trans hs) (by decide)
  · rw [h.refines.state_eq] at hb ⊢
    rw [hbefore.state_eq]
    have hne : p ≠ a.currentProcess := by
      rintro rfl
      rw [← Sched.current, h.current.running hi] at hb
      exact absurd hb (by decide)
    rcases hstate p (h.registered_iff.mp hp) with he | ⟨_, hready⟩
    · exact .inl (he.trans (by rw [Sched.proc_givenUp_of_ne op hne]))
    · exact .inr hready

/-- A decision of the code, with the state that it hands to the switch. -/
theorem decision (h : Represents s a) (hop : op.Enabled s.toGlobals)
    (hd : decides alg s op = true) (ht : Demoos.step alg s op = some t) :
    ∃ b c u, Sched.Decides alg (a.before alg op) b c ∧ Represents t b ∧
      alg.select (Demoos.before alg s op) = some (c.target, u) ∧
      Refines u (((a.before alg op).contest alg).commit c) ∧ t = handOver (c.target, u) := by
  have hop' : op.Enabled a.toGlobals := by rw [← h.refines.globals]; exact hop
  have hbefore := h.refines.before alg h.law h.current op
  have hcalm := h.law.calm_before alg h.current hop'
  have hout : (a.before alg op).Outgoing := h.law.outgoing_before h.current hop'
  rw [step_eq, if_pos hd, pickNext_eq] at ht
  obtain ⟨r, hr, rfl⟩ := Option.map_eq_some_iff.mp ht
  have hselect := hbefore.select alg hcalm.law.lists hout.registered
  rw [hr] at hselect
  cases hc : ((a.before alg op).contest alg).select alg with
  | none => rw [hc] at hselect; cases hselect
  | some c =>
      rw [hc] at hselect
      cases hselect with
      | some hswitch =>
          have hpick : (a.before alg op).pickNext alg =
              some (((a.before alg op).contest alg).dispatch c) := by
            rw [Sched.pickNext, hc]
            rfl
          obtain ⟨c', hdec⟩ := hcalm.law.pickNext hout hpick
          obtain rfl := Option.some.inj (hdec.selected.symm.trans hc)
          have href := hswitch.dispatch
          obtain ⟨p, u⟩ := r
          obtain ⟨rfl, hu⟩ := hswitch
          exact ⟨_, c', u, hdec, ⟨href, hdec.law, hdec.current⟩, hr, hu, rfl⟩

theorem lives (h : Represents s a) (hsole : a.Sole) (hop : op.Enabled s.toGlobals)
    (ht : Demoos.step alg s op = some t) : Lives alg s op t where
  before := h.unswitched_before hop
  born p hp hp' := by
    have hop' : op.Enabled a.toGlobals := by rw [← h.refines.globals]; exact hop
    have hbefore := h.refines.before alg h.law h.current op
    have hcalm := h.law.calm_before alg h.current hop'
    rw [hbefore.processes, hcalm.law.registered_iff] at hp'
    have hge := Nat.le_of_not_lt fun hlt => hp (h.registered_iff.mpr hlt)
    rw [hbefore.state_eq]
    exact hcalm.fresh p (by rw [Sched.toGlobals_givenUp]; exact hge) hp'
  idle hd := by
    rw [step_eq, hd] at ht
    exact (Option.some.inj ht).symm
  decision hd := by
    obtain ⟨b, c, u, hdec, hrep, hsel, hu, rfl⟩ := h.decision hop hd ht
    have hop' : op.Enabled a.toGlobals := by rw [← h.refines.globals]; exact hop
    have hbefore := h.refines.before alg h.law h.current op
    have hcalm := h.law.calm_before alg h.current hop'
    have hsole' : (a.before alg op).Sole := h.law.sole_before h.current hop' hsole
    have hreg : ∀ p, (Demoos.before alg s op).processes p = some p →
        p < (a.before alg op).nProcesses := fun p hp => by
      rw [hbefore.processes] at hp
      exact hcalm.law.registered_iff.mp hp
    refine ⟨c.target, u, hsel, ⟨fun p hi hp => ?_, fun p _ _ hb => ?_⟩, rfl, fun hi => ?_,
      fun p hi hp hne => ?_⟩
    · rw [hu.state_eq]
      exact hdec.not_running hsole' hi (hreg p hp)
    · rw [hbefore.state_eq] at hb ⊢
      rw [hu.state_eq]
      exact hdec.blocked hb
    · rw [hu.state_eq]
      exact hdec.ready_next hi
    · rw [hu.processes] at hp
      have hlt : p < (a.before alg op).nProcesses := by
        have hcon := hdec.contest.registered_iff.mp hp
        rwa [Sched.toGlobals_contest] at hcon
      have hrun := hdec.not_running hsole' hi hlt
      rw [hrep.refines.state_eq, hu.state_eq, hdec.result, Sched.state_dispatch, if_neg hne,
        if_neg fun hn => hrun hn.2]

end Represents

theorem LifeReachable.represents {alg : Algorithm} {s : KState} (h : LifeReachable alg s) :
    ∃ a, Represents s a ∧ a.Sole := by
  obtain ⟨s₀, ⟨hstart, hsole⟩, hrun⟩ := h
  have hrep := hstart.represents
  exact hrep.run (hrep.sole_iff.mpr hsole) hrun
    fun a op b hlaw hcur hI hop hb => hlaw.sole_step hcur hop hb hI

theorem lifeReachable_afterBoot {alg : Algorithm} {ops : List Op} {s : KState}
    (h : afterBoot alg ops = some s) : LifeReachable alg s :=
  ⟨_, ⟨.boot _, fun _ _ hs => ProcessState.noConfusion hs⟩, run_runOps h⟩

/-- Every process lives as it should, under every algorithm and in every run. -/
theorem lifeCycle_of_reachable {alg : Algorithm} {s : KState} (h : LifeReachable alg s) :
    LifeCycle alg s := by
  obtain ⟨a, ha, hsole⟩ := h.represents
  have hstate : ∀ {s : KState} {a : Sched}, Refines s a → s.current.state = a.current.state :=
    fun href => congrArg Proc.state href.current
  refine ⟨ha.sole_iff.mp hsole, fun op t hop hd ht => ?_, fun hr t hrun => ?_,
    fun op t hop ht => ha.lives hsole hop ht, fun p hi hp hz t hrun => ?_⟩
  · obtain ⟨b, c, u, hdec, hrep, _⟩ := ha.decision hop hd ht
    rw [hstate hrep.refines]
    exact hdec.running
  · rw [hstate ha.refines] at hr
    obtain ⟨b, hb, hbr⟩ := ha.run (I := fun a => a.current.state = .running) hr hrun
      fun a op b hlaw hcur hI hop hab => hlaw.running_step hcur hop hab (.inr hI)
    rw [hstate hb.refines]
    exact hbr
  · have hdormant : a.Dormant p ∧ (a.proc p).state = .zombie := by
      rw [ha.refines.state_eq] at hz
      exact ⟨⟨hi, ha.registered_iff.mp hp, .inr hz⟩, hz⟩
    obtain ⟨b, hb, _, hbz⟩ := ha.run (I := fun a => a.Dormant p ∧ (a.proc p).state = .zombie)
      hdormant hrun fun a op b hlaw hcur hI hop hab => by
        obtain ⟨hdorm, hs, _⟩ := hlaw.step_dormant hcur hop hab hI.1
        exact ⟨hdorm, hs.trans hI.2⟩
    rw [hb.refines.state_eq]
    exact hbz

/-- A waiter that a signal kills before it runs again. -/
theorem lifeCycle_roundRobin : ∃ s, afterBoot .roundRobin [.copyProcess true, .timerTick,
    .copyProcess true, .wait 2, .sendSignal 1 1, .exit] = some s ∧ LifeCycle .roundRobin s := by
  obtain ⟨s, hs, _⟩ := exists_afterBoot .roundRobin [.copyProcess true, .timerTick,
    .copyProcess true, .wait 2, .sendSignal 1 1, .exit] (fun _ => True) (by decide +kernel)
  exact ⟨s, hs, lifeCycle_of_reachable (lifeReachable_afterBoot hs)⟩

end Demoos
