import Demoos.Scheduler.Simulation

/-!
# Runs of the kernel

A run is a sequence of enabled operations, in any order.  It starts at boot or,
since the non-preemptive algorithms never leave init, in any state that obeys
the law of the queues and runs a registered process.

`KState.QueueLaw` is the law in the terms of the code: heads, tails, links and
state fields.  It is the law of the abstract scheduler read through the links
(`Represents`), and so it holds in every reachable state.
-/

namespace Demoos

open LinkedQueue
open Relation (ReflTransGen)

/-! ## The law of the queues -/

namespace KState

/-- The processes of a ready queue, from the head along the links. -/
def contents (s : KState) (l : ReadyList) : List Pid :=
  walk s.links maxProcesses (s.queue l).head

/-- The links from the head lead to the tail and stop, without a cycle. -/
structure WellFormed (s : KState) (l : ReadyList) : Prop where
  ends : (s.queue l).head = none ↔ (s.queue l).tail = none
  path : Seg s.links (s.queue l).head (s.contents l) none
  last : (s.queue l).tail = (s.contents l).getLast?
  nodup : (s.contents l).Nodup

/-- The first `n_processes` slots hold the processes of their numbers. -/
structure ProcessTable (s : KState) : Prop where
  initRegistered : 0 < s.nProcesses
  bound : s.nProcesses ≤ maxProcesses
  slots : ∀ i, s.processes i = if i < s.nProcesses then some i else none

structure QueueLaw (s : KState) : Prop where
  table : s.ProcessTable
  wellFormed : ∀ l, s.WellFormed l
  queued : ∀ l, ∀ p ∈ s.contents l,
    p ≠ initProcess ∧ s.processes p = some p ∧ (s.pcb p).state = .ready
  ready_iff : ∀ p, p ≠ initProcess → s.processes p = some p →
    ((s.pcb p).state = .ready ↔
      ∃ l, (s.contents l).count p = 1 ∧ ∀ l' ≠ l, (s.contents l').count p = 0)

/-- The abstract state read off the code's state. -/
def abstract (s : KState) : Sched where
  toGlobals := s.toGlobals
  proc p := (s.pcb p).toProc
  list := s.contents

end KState

/-- The abstract state of a refinement is the one read off the code's state. -/
theorem Refines.abstract_eq {s : KState} {a : Sched} (h : Refines s a) (hlaw : a.Law) :
    s.abstract = a := by
  have hproc : s.abstract.proc = a.proc := funext fun p : Nat => h.proc p
  have hlist : s.abstract.list = a.list :=
    funext fun l => (h.holds l).walk_eq (hlaw.length_le l)
  have hglobals : s.abstract.toGlobals = a.toGlobals := h.globals
  cases a with
  | mk g proc list =>
      rw [KState.abstract, Sched.mk.injEq]
      exact ⟨hglobals, hproc, hlist⟩

namespace Refines

variable {s : KState} {a : Sched}

theorem contents_eq (h : Refines s a) (hlaw : a.Law) (l : ReadyList) : s.contents l = a.list l :=
  (h.holds l).walk_eq (hlaw.length_le l)

theorem registered_iff (h : Refines s a) (hlaw : a.Law) {p : Pid} :
    s.processes p = some p ↔ p < a.nProcesses := by
  rw [h.processes]
  exact hlaw.registered_iff

/-- A lawful abstract state obeys the law in the terms of the code. -/
theorem queueLaw (h : Refines s a) (hlaw : a.Law) : s.QueueLaw where
  table :=
    { initRegistered := by rw [h.nProcesses]; exact hlaw.initRegistered
      bound := by rw [h.nProcesses]; exact hlaw.bound
      slots := by rw [h.nProcesses, h.processes]; exact hlaw.table }
  wellFormed l :=
    { ends := by rw [(h.holds l).head_eq_none, (h.holds l).tail_eq_none]
      path := by rw [h.contents_eq hlaw]; exact (h.holds l).seg
      last := by rw [h.contents_eq hlaw]; exact (h.holds l).tail
      nodup := by rw [h.contents_eq hlaw]; exact hlaw.nodup l }
  queued l p hp := by
    rw [h.contents_eq hlaw] at hp
    obtain ⟨hi, hlt, hs⟩ := hlaw.queued l p hp
    exact ⟨hi, (h.registered_iff hlaw).mpr hlt, (h.state_eq p).trans hs⟩
  ready_iff p hi hp := by
    rw [h.state_eq p]
    simp only [h.contents_eq hlaw]
    constructor
    · intro hs
      obtain ⟨l, hl⟩ := hlaw.linked p hi ((h.registered_iff hlaw).mp hp) hs
      refine ⟨l, List.count_eq_one_of_mem (hlaw.nodup l) hl, fun l' hne => ?_⟩
      exact List.count_eq_zero.mpr fun hl' => hne (hlaw.apart l' l p hl' hl)
    · rintro ⟨l, hl, _⟩
      have hmem : p ∈ a.list l := List.one_le_count_iff.mp hl.ge
      exact (hlaw.queued l p hmem).2.2

end Refines

/-! ## The simulation -/

/-- The code's state `s` represents the lawful abstract state `a`. -/
structure Represents (s : KState) (a : Sched) : Prop where
  refines : Refines s a
  law : a.Law
  current : a.Current

theorem KState.ProcessTable.registered_iff {s : KState} (h : s.ProcessTable) {p : Pid} :
    s.processes p = some p ↔ p < s.nProcesses := by
  rw [h.slots]
  split <;> simp_all

namespace Represents

variable {s : KState} {a : Sched}

theorem contents_eq (h : Represents s a) (l : ReadyList) : s.contents l = a.list l :=
  h.refines.contents_eq h.law l

theorem registered_iff (h : Represents s a) {p : Pid} :
    s.processes p = some p ↔ p < a.nProcesses := h.refines.registered_iff h.law

/-- A lawful abstract state obeys the law in the terms of the code. -/
theorem queueLaw (h : Represents s a) : s.QueueLaw := h.refines.queueLaw h.law

theorem step {alg : Algorithm} {op : Op} {s' : KState} (h : Represents s a)
    (hop : op.Enabled s.toGlobals) (hs : Demoos.step alg s op = some s') :
    ∃ a', a.step alg op = some a' ∧ Represents s' a' := by
  have hop' : op.Enabled a.toGlobals := by rw [← h.refines.globals]; exact hop
  have hrel := h.refines.step alg h.law h.current hop'
  rw [hs] at hrel
  cases ha : a.step alg op with
  | none => rw [ha] at hrel; cases hrel
  | some a' =>
      rw [ha] at hrel
      cases hrel with
      | some href =>
          obtain ⟨hlaw, hcur⟩ := h.law.step h.current hop' ha
          exact ⟨a', rfl, href, hlaw, hcur⟩

/-- Where the abstract operation returns, the code returns. -/
theorem step_exists {alg : Algorithm} {op : Op} {a' : Sched} (h : Represents s a)
    (hop : op.Enabled s.toGlobals) (ha : a.step alg op = some a') :
    ∃ s', Demoos.step alg s op = some s' ∧ Represents s' a' := by
  have hop' : op.Enabled a.toGlobals := by rw [← h.refines.globals]; exact hop
  have hrel := h.refines.step alg h.law h.current hop'
  rw [ha] at hrel
  cases hs : Demoos.step alg s op with
  | none => rw [hs] at hrel; cases hrel
  | some s' =>
      obtain ⟨b, hb, hrep⟩ := h.step hop hs
      obtain rfl := Option.some.inj (ha.symm.trans hb)
      exact ⟨s', rfl, hrep⟩

end Represents

/-- A state that obeys the law represents what is read off it. -/
theorem KState.QueueLaw.represents {s : KState} (h : s.QueueLaw)
    (hreg : s.processes s.currentProcess = some s.currentProcess)
    (hrun : s.currentProcess ≠ initProcess → s.current.state = .running) :
    Represents s s.abstract where
  refines :=
    { globals := rfl
      proc := fun _ => rfl
      holds := fun l => ⟨(h.wellFormed l).path, (h.wellFormed l).last⟩
      apart := fun l l' p hp hp' => by
        obtain ⟨hi, hreg, hs⟩ := h.queued l p hp
        obtain ⟨m, _, hm⟩ := (h.ready_iff p hi hreg).mp hs
        have hone : ∀ l, p ∈ s.contents l → l = m := fun l hl =>
          by_contra fun hne => List.count_eq_zero.mp (hm l hne) hl
        rw [hone l hp, hone l' hp'] }
  law :=
    { initRegistered := h.table.initRegistered
      bound := h.table.bound
      table := h.table.slots
      nodup := fun l => (h.wellFormed l).nodup
      apart := fun l l' p hp hp' => by
        obtain ⟨hi, hreg, hs⟩ := h.queued l p hp
        obtain ⟨m, _, hm⟩ := (h.ready_iff p hi hreg).mp hs
        have hone : ∀ l, p ∈ s.contents l → l = m := fun l hl =>
          by_contra fun hne => List.count_eq_zero.mp (hm l hne) hl
        rw [hone l hp, hone l' hp']
      queued := fun l p hp => by
        obtain ⟨hi, hreg, hs⟩ := h.queued l p hp
        exact ⟨hi, h.table.registered_iff.mp hreg, hs⟩
      linked := fun p hi hlt hs => by
        obtain ⟨l, hl, _⟩ := (h.ready_iff p hi (h.table.registered_iff.mpr hlt)).mp hs
        exact ⟨l, List.one_le_count_iff.mp hl.ge⟩ }
  current := ⟨h.table.registered_iff.mp hreg, hrun⟩

/-! ## Runs -/

/-- Where a run starts.  A running process is not ready, so the law keeps it out
of the queues. -/
inductive Start : KState → Prop
  | boot (timer : Nat → BitVec 32) : Start (boot timer)
  | running {s : KState} (law : s.QueueLaw)
      (registered : s.processes s.currentProcess = some s.currentProcess)
      (notInit : s.currentProcess ≠ initProcess) (run : s.current.state = .running) : Start s

/-- One operation of a run. -/
def Next (alg : Algorithm) (s s' : KState) : Prop :=
  ∃ op : Op, op.Enabled s.toGlobals ∧ step alg s op = some s'

/-- The states of the runs under `alg`. -/
def Reachable (alg : Algorithm) : KState → Prop := Transition.Reachable Start (Next alg)

theorem slots_boot (timer : Nat → BitVec 32) (i : Nat) :
    (boot timer).processes i = if i < 1 then some i else none := by
  change Function.update (fun _ => none) initProcess (some initProcess) i = _
  rw [Function.update_apply]
  by_cases hi : i = initProcess
  · subst hi; rfl
  · rw [if_neg hi, if_neg fun hlt => hi (Nat.lt_one_iff.mp hlt)]

theorem represents_boot (timer : Nat → BitVec 32) :
    Represents (boot timer) (boot timer).abstract := by
  refine KState.QueueLaw.represents ⟨⟨Nat.one_pos, Nat.le_of_ble_eq_true rfl, slots_boot timer⟩,
    fun l => ⟨Iff.rfl, rfl, rfl, List.nodup_nil⟩, ?_, ?_⟩ rfl fun h => absurd rfl h
  · intro l p hp
    exact absurd hp List.not_mem_nil
  · intro p hi hp
    rw [slots_boot] at hp
    split at hp
    next hlt => exact absurd (Nat.lt_one_iff.mp hlt) hi
    next => exact absurd hp (by simp)

theorem Start.represents {s : KState} (h : Start s) : Represents s s.abstract := by
  cases h with
  | boot timer => exact represents_boot timer
  | running law registered _ run => exact law.represents registered fun _ => run

/-- A step of the code keeps an invariant of the abstract scheduler. -/
theorem Represents.next {alg : Algorithm} {s t : KState} {a : Sched} {I : Sched → Prop}
    (hstep : ∀ a op b, a.Law → a.Current → I a → op.Enabled a.toGlobals →
      a.step alg op = some b → I b)
    (h : Represents s a) (hI : I a) (hnext : Next alg s t) : ∃ b, Represents t b ∧ I b := by
  obtain ⟨op, hop, hs⟩ := hnext
  obtain ⟨b, hb, hrep⟩ := h.step hop hs
  have hop' : op.Enabled a.toGlobals := by rw [← h.refines.globals]; exact hop
  exact ⟨b, hrep, hstep a op b h.law h.current hI hop' hb⟩

/-- A run keeps it too. -/
theorem Represents.run {alg : Algorithm} {s t : KState} {a : Sched} {I : Sched → Prop}
    (h : Represents s a) (hI : I a) (hrun : ReflTransGen (Next alg) s t)
    (hstep : ∀ a op b, a.Law → a.Current → I a → op.Enabled a.toGlobals →
      a.step alg op = some b → I b) : ∃ b, Represents t b ∧ I b := by
  refine Transition.run_invariant (P := fun s => ∃ a, Represents s a ∧ I a) ?_ hrun ⟨a, h, hI⟩
  rintro s t ⟨a, ha, hI⟩ hnext
  exact ha.next hstep hI hnext

/-- An invariant of the abstract scheduler holds of every reachable state of the
code. -/
theorem Reachable.represents_invariant {alg : Algorithm} {s : KState} {I : Sched → Prop}
    (h : Reachable alg s) (hstart : ∀ s, Start s → I s.abstract)
    (hstep : ∀ a op b, a.Law → a.Current → I a → op.Enabled a.toGlobals →
      a.step alg op = some b → I b) :
    ∃ a, Represents s a ∧ I a := by
  obtain ⟨s₀, h₀, hrun⟩ := h
  exact h₀.represents.run (hstart s₀ h₀) hrun hstep

theorem Reachable.represents {alg : Algorithm} {s : KState} (h : Reachable alg s) :
    ∃ a, Represents s a := by
  obtain ⟨a, ha, _⟩ := h.represents_invariant (I := fun _ => True) (fun _ _ => trivial)
    fun _ _ _ _ _ _ _ _ => trivial
  exact ⟨a, ha⟩

/-! ## Concrete runs -/

/-- Run a list of operations, each of which must be enabled and return. -/
def runOps (alg : Algorithm) : List Op → KState → Option KState :=
  Transition.exec fun s op => if op.Enabled s.toGlobals then step alg s op else none

theorem run_runOps {alg : Algorithm} {s s' : KState} {ops : List Op}
    (hrun : runOps alg ops s = some s') : ReflTransGen (Next alg) s s' := by
  refine Transition.run_exec (fun s op t ht => ?_) hrun
  obtain ⟨hop, hs⟩ := Option.ite_none_right_eq_some.mp ht
  exact ⟨op, hop, hs⟩

/-- What the operations of a list keep holds where they lead from boot. -/
theorem represents_runOps {alg : Algorithm} {Q : Op → Prop} {I : Sched → Prop} {ops : List Op}
    {timer : Nat → BitVec 32} {s : KState} (hboot : I (boot timer).abstract)
    (hstep : ∀ a op b, a.Law → a.Current → I a → Q op → op.Enabled a.toGlobals →
      a.step alg op = some b → I b)
    (hops : ∀ op ∈ ops, Q op) (hs : runOps alg ops (boot timer) = some s) :
    ∃ a, Represents s a ∧ I a := by
  refine Transition.exec_invariant (P := fun ops s => (∀ op ∈ ops, Q op) →
    ∃ a, Represents s a ∧ I a) (fun ops s op t h ht hall => ?_)
    (fun _ => ⟨_, represents_boot timer, hboot⟩) hs hops
  obtain ⟨hop, ht⟩ := Option.ite_none_right_eq_some.mp ht
  obtain ⟨a, ha, hI⟩ := h fun o ho => hall o (List.mem_append_left _ ho)
  obtain ⟨b, hb, hrep⟩ := ha.step hop ht
  have hop' : op.Enabled a.toGlobals := by rw [← ha.refines.globals]; exact hop
  have hQ : Q op := hall op (List.mem_append_right _ List.mem_cons_self)
  exact ⟨b, hrep, hstep a op b ha.law ha.current hI hQ hop' hb⟩

/-- A kernel whose timer always reads `0`, after the given operations. -/
def afterBoot (alg : Algorithm) (ops : List Op) : Option KState :=
  runOps alg ops (boot fun _ => 0)

theorem reachable_afterBoot {alg : Algorithm} {ops : List Op} {s : KState}
    (h : afterBoot alg ops = some s) : Reachable alg s :=
  ⟨_, .boot _, run_runOps h⟩

/-- A run that the evaluator takes to a state with the property `P`. -/
theorem exists_afterBoot (alg : Algorithm) (ops : List Op) (P : KState → Prop) [DecidablePred P]
    (h : (afterBoot alg ops).any (P ·) = true) :
    ∃ s, afterBoot alg ops = some s ∧ Reachable alg s ∧ P s := by
  obtain ⟨s, hs, hp⟩ := (Option.any_eq_true _ _).mp h
  exact ⟨s, hs, reachable_afterBoot hs, of_decide_eq_true hp⟩

/-! ## The law in every run -/

/-- Under every algorithm and in every run the ready queues are well formed and
hold the ready processes. -/
theorem queueLaw_of_reachable {alg : Algorithm} {s : KState} (h : Reachable alg s) :
    s.QueueLaw := by
  obtain ⟨a, ha⟩ := h.represents
  exact ha.queueLaw

/-- A parent under MLFQ and a child of lower level, after a yield. -/
theorem queueLaw_mlfq : ∃ s, afterBoot .mlfq [.copyProcess true, .timerTick, .copyProcess true,
    .setParam 2 schedParamQueuePriority 3, .yield] = some s ∧ s.QueueLaw := by
  obtain ⟨s, hs, hreach, _⟩ := exists_afterBoot .mlfq [.copyProcess true, .timerTick,
    .copyProcess true, .setParam 2 schedParamQueuePriority 3, .yield] (fun _ => True)
    (by decide +kernel)
  exact ⟨s, hs, queueLaw_of_reachable hreach⟩

end Demoos
