import Demoos.Scheduler.LifeCycle
import Demoos.Scheduler.Protection

/-!
# The balance of the critical-section guard

`preempt_disable` and `preempt_enable` act on `current_process`, and a decision
changes it between the two.  So the counters are balanced over all processes.
Between operations the current process has closed what it opened, and every
other process is one `preempt_enable` behind: the one at the end of the decision
that took the CPU from it, or `schedule_tail` if it has never run (`Balanced`).
At a switch the counters of all processes are one.

A fork that fails leaves its `preempt_disable` open, and the runs here have
none.
-/

namespace Demoos

open Function (update_apply)

/-! ## Balanced states -/

structure Balanced (s : KState) : Prop where
  current : s.current.preemptDisabled = 0
  others : ∀ p, s.processes p = some p → p ≠ s.currentProcess → (s.pcb p).preemptDisabled = 1

/-- A fork succeeds. -/
def Op.Succeeds (g : Globals) : Op → Prop
  | .copyProcess page => page = true ∧ g.nProcesses < maxProcesses
  | _ => True

section Steps

variable {s t : KState} {alg : Algorithm} {op : Op}

theorem Balanced.same (hs : Balanced s) (h : SameGuards s t) : Balanced t where
  current := by rw [KState.current, h.currentProcess, h.guard]; exact hs.current
  others p hp hne := by
    rw [h.processes] at hp
    rw [h.currentProcess] at hne
    rw [h.guard]
    exact hs.others p hp hne

theorem Balanced.forked (hs : Balanced s) (h : Forked s t)
    (hcur : s.currentProcess < s.nProcesses) : Balanced t where
  current := by
    rw [KState.current, h.guard, h.currentProcess, if_neg (Nat.ne_of_lt hcur)]
    exact hs.current
  others p hp hne := by
    rw [h.currentProcess] at hne
    rw [h.guard]
    split
    next => rfl
    next hpn =>
      rw [h.processes, update_apply, if_neg hpn] at hp
      exact hs.others p hp hne

theorem Balanced.before (hs : Balanced s) (hcur : s.currentProcess < s.nProcesses)
    (hop : op.Succeeds s.toGlobals) : Balanced (before alg s op) := by
  cases op with
  | copyProcess page =>
      obtain ⟨rfl, hn⟩ := hop
      exact hs.forked (forked_copyProcess alg hcur hn) hcur
  | _ => exact hs.same (sameGuards_before alg (by simp))

theorem Balanced.switched (hs : Balanced s) (h : Switched s t)
    (hreg : t.processes t.currentProcess = some t.currentProcess) : Balanced t where
  current := by
    have hguard := h.guard t.currentProcess
    rw [h.processes] at hreg
    rw [if_pos rfl] at hguard
    rw [KState.current, hguard]
    split
    next e =>
      have hcurrent := hs.current
      rw [KState.current] at hcurrent
      rw [e, hcurrent]
      rfl
    next hne => rw [hs.others _ hreg hne]; rfl
  others p hp hne := by
    rw [h.processes] at hp
    rw [h.guard, if_neg hne]
    split
    next e =>
      have hcurrent := hs.current
      rw [KState.current] at hcurrent
      rw [e, hcurrent]
      rfl
    next hne' => rw [hs.others p hp hne']; rfl

end Steps

/-! ## At the switch -/

namespace Sched

theorem guard_commit (a : Sched) (c : Choice) (p : Pid) :
    ((a.commit c).proc p).preemptDisabled = (a.proc p).preemptDisabled := by
  rw [proc_commit]
  split
  next => exact Proc.field_handled _ Proc.preemptDisabled (fun _ _ => rfl) fun _ _ => rfl
  next => rfl

theorem guard_contest (a : Sched) (alg : Algorithm) (p : Pid) :
    ((a.contest alg).proc p).preemptDisabled =
      (a.proc p).preemptDisabled + if p = a.currentProcess then 1 else 0 := by
  rw [proc_contest]
  split
  next =>
    dsimp only
    split <;> rfl
  next => exact (Int.add_zero _).symm

end Sched

/-- The decision of an operation hands a state to the switch in which every
process is inside one critical section. -/
def SwitchesEven (alg : Algorithm) (s : KState) (op : Op) (t : KState) : Prop :=
  decides alg s op = true → ∃ next u, alg.select (before alg s op) = some (next, u) ∧
    t = handOver (next, u) ∧ ∀ p, u.processes p = some p → (u.pcb p).preemptDisabled = 1

/-! ## Every run -/

/-- A step of a run in which every fork succeeds. -/
def SuccessNext (alg : Algorithm) (s t : KState) : Prop :=
  ∃ op : Op, op.Enabled s.toGlobals ∧ op.Succeeds s.toGlobals ∧ step alg s op = some t

/-- The runs from a balanced start in which every fork succeeds. -/
def SuccessReachable (alg : Algorithm) : KState → Prop :=
  Transition.Reachable (fun s => Start s ∧ Balanced s) (SuccessNext alg)

namespace Represents

variable {s t : KState} {a : Sched} {alg : Algorithm} {op : Op}

theorem current_lt (h : Represents s a) : s.currentProcess < s.nProcesses := by
  rw [h.refines.currentProcess, h.refines.nProcesses]
  exact h.current.registered

theorem balanced_step (h : Represents s a) (hs : Balanced s) (hop : op.Enabled s.toGlobals)
    (hsucc : op.Succeeds s.toGlobals) (ht : Demoos.step alg s op = some t) : Balanced t := by
  have hbefore : Balanced (Demoos.before alg s op) := hs.before h.current_lt hsucc
  obtain ⟨b, _, hrep⟩ := h.step hop ht
  rw [step_eq] at ht
  split at ht
  next =>
    refine hbefore.switched (pickNext_switched ht) ?_
    rw [hrep.refines.currentProcess]
    exact hrep.registered_iff.mpr hrep.current.registered
  next => exact Option.some.inj ht ▸ hbefore

theorem switchesEven (h : Represents s a) (hs : Balanced s) (hop : op.Enabled s.toGlobals)
    (hsucc : op.Succeeds s.toGlobals) (ht : Demoos.step alg s op = some t) :
    SwitchesEven alg s op t := by
  intro hd
  have hbalanced : Balanced (Demoos.before alg s op) := hs.before h.current_lt hsucc
  have hbefore := h.refines.before alg h.law h.current op
  obtain ⟨b, c, u, hdec, _, hsel, hu, rfl⟩ := h.decision hop hd ht
  refine ⟨c.target, u, hsel, rfl, fun p hp => ?_⟩
  have hguard : (u.pcb p).preemptDisabled = ((Demoos.before alg s op).pcb p).preemptDisabled +
      if p = (Demoos.before alg s op).currentProcess then 1 else 0 := by
    have hproc := congrArg Proc.preemptDisabled (hu.proc p)
    rw [Sched.guard_commit, Sched.guard_contest, ← hbefore.currentProcess, ← hbefore.proc] at hproc
    exact hproc
  have hreg : (Demoos.before alg s op).processes p = some p := by
    rw [hu.processes] at hp
    have hcon : (a.before alg op).processes p = some p := by
      rw [← Sched.toGlobals_contest (a.before alg op) alg]
      exact hp
    rw [hbefore.processes]
    exact hcon
  rw [hguard]
  split
  next e =>
    have hcurrent := hbalanced.current
    rw [KState.current, ← e] at hcurrent
    rw [hcurrent]
    rfl
  next hne => rw [hbalanced.others p hreg hne]; rfl

end Represents

theorem SuccessReachable.represents {alg : Algorithm} {s : KState} (h : SuccessReachable alg s) :
    (∃ a, Represents s a) ∧ Balanced s := by
  refine Transition.Reachable.invariant (P := fun s => (∃ a, Represents s a) ∧ Balanced s) h
    (fun s hs => ⟨⟨_, hs.1.represents⟩, hs.2⟩) ?_
  rintro s t ⟨⟨a, ha⟩, hbal⟩ ⟨op, hop, hsucc, ht⟩
  obtain ⟨b, _, hrep⟩ := ha.step hop ht
  exact ⟨⟨b, hrep⟩, ha.balanced_step hbal hop hsucc ht⟩

/-- The guards are balanced in every run, and even at every switch. -/
theorem balanced_of_reachable {alg : Algorithm} {s : KState} (h : SuccessReachable alg s) :
    Balanced s ∧ ∀ (op : Op) (t : KState), op.Enabled s.toGlobals → op.Succeeds s.toGlobals →
      step alg s op = some t → SwitchesEven alg s op t := by
  obtain ⟨⟨a, ha⟩, hbal⟩ := h.represents
  exact ⟨hbal, fun op t hop hsucc ht => ha.switchesEven hbal hop hsucc ht⟩

theorem balanced_boot (timer : Nat → BitVec 32) : Balanced (boot timer) where
  current := rfl
  others p hp hne := by
    rw [slots_boot] at hp
    split at hp
    next hlt => exact absurd (Nat.lt_one_iff.mp hlt) hne
    next => exact absurd hp (by simp)

/-- The first tick behind the first fork. -/
theorem balanced_mlfq : ∃ s t, step .mlfq (boot fun _ => 0) (.copyProcess true) = some s ∧
    step .mlfq s .timerTick = some t ∧ Balanced t := by
  have hfork : SuccessReachable .mlfq (copyProcess .mlfq true (boot fun _ => 0)).2 :=
    (Transition.Reachable.start ⟨.boot _, balanced_boot _⟩).step
      ⟨.copyProcess true, trivial, ⟨rfl, Nat.le_of_ble_eq_true rfl⟩, rfl⟩
  obtain ⟨t, ht⟩ := Option.isSome_iff_exists.mp (show (step .mlfq
    (copyProcess .mlfq true (boot fun _ => 0)).2 .timerTick).isSome by decide +kernel)
  exact ⟨_, t, rfl, ht, (balanced_of_reachable
    (hfork.step ⟨.timerTick, trivial, trivial, ht⟩)).1⟩

end Demoos
