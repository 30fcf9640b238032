import Demoos.Scheduler.Primitives

/-!
# Waiting in the queue of Round Robin

A process that stays linked in the ready queue is overtaken by those in front of it
only, and by each of them at most once.  Whatever happens between two decisions
writes behind the tail, and a decision takes a nonempty part off the head.  So the
processes in front of it are, at any time, a suffix of those that were there
before, and the dispatched processes are among the ones that are gone
(`Waits.ahead`).

A slice is ten ticks at most, as long as no tick meets an open critical section.
-/

namespace Demoos

open Relation (ReflTransGen)

/-! ## The front of a list -/

/-- The elements in front of `p`. -/
def ahead {α : Type*} [DecidableEq α] (p : α) (xs : List α) : List α := xs.take (xs.idxOf p)

section Ahead

variable {α : Type*} [DecidableEq α] {p q : α} {xs ys pre : List α}

theorem length_ahead (hp : p ∈ xs) : (ahead p xs).length = xs.idxOf p :=
  List.length_take_of_le (List.idxOf_lt_length_of_mem hp).le

theorem ahead_sublist (p : α) (xs : List α) : (ahead p xs).Sublist xs := List.take_sublist _ _

/-- What comes behind the tail is not in front. -/
theorem ahead_prefix (hp : p ∈ xs) (h : xs <+: ys) : ahead p ys = ahead p xs := by
  obtain ⟨zs, rfl⟩ := h
  rw [ahead, List.idxOf_append_of_mem hp,
    List.take_append_of_le_length (List.idxOf_lt_length_of_mem hp).le, ahead]

theorem ahead_append (hp : p ∉ pre) : ahead p (pre ++ xs) = pre ++ ahead p xs := by
  rw [ahead, List.idxOf_append_of_notMem hp, List.take_length_add_append, ahead]

theorem ahead_cons (hp : p ≠ q) : ahead p (q :: xs) = q :: ahead p xs := by
  rw [ahead, List.idxOf_cons_ne xs hp.symm, List.take_succ_cons, ahead]

end Ahead

namespace Sched

variable {op : Op} {a b c : Sched} {p : Pid} {xs : List Pid}

/-! ## The queue between two decisions -/

/-- The writes of an operation go behind the tail. -/
theorem prefix_prim (h : xs <+: a.list .readyQueue) (hb : Prim .roundRobin op a b) :
    xs <+: b.list .readyQueue := by
  cases hb with
  | write p f hf => exact h
  | enqueue p hp hlt =>
      unfold enqueue
      split
      next => exact h
      next => exact h.trans (List.prefix_append _ _)
  | enroll hu hcur hn => exact h
  | count he => exact h
  | boost policy he hp => exact absurd hp nofun
  | demote policy he hp hd hu hl => exact absurd hp nofun
  | relevel p v level he => exact h

theorem Law.prefix_before (h : a.Law) (hc : a.Current) (hop : op.Enabled a.toGlobals) :
    a.list .readyQueue <+: (a.before .roundRobin op).list .readyQueue :=
  Prims.invariant (fun _ _ hx => prefix_prim hx) (h.prims_before hc hop) List.prefix_rfl

theorem Law.prefix_contest (h : a.Law) (hc : a.Outgoing) :
    a.list .readyQueue <+: (a.contest .roundRobin).list .readyQueue := by
  have hprims : Prims .roundRobin .yield a (a.contest .roundRobin) := h.prims_contest hc
  exact hprims.invariant (fun _ _ hx => prefix_prim hx) List.prefix_rfl

/-! ## The queue at a decision -/

/-- A choice from the front takes the barred processes at the head and the one
behind them. -/
theorem list_commit_front {l : ReadyList} {quantum : Pid → Option Int} (hnodup : (a.list l).Nodup)
    {q : Pid} (hq : (a.frontChoice (a.list l) quantum).next = some q) :
    ∃ pre, a.list l = pre ++ q :: (a.commit (a.frontChoice (a.list l) quantum)).list l := by
  obtain ⟨pre, post, hps, hvisited, hpre, _⟩ := scan_split hq
  refine ⟨pre, ?_⟩
  rw [hps] at hnodup
  obtain ⟨_, hqpost, hapart⟩ := List.nodup_append.mp hnodup
  have hpost : (a.commit (a.frontChoice (a.list l) quantum)).list l = post := by
    have hc : (a.frontChoice (a.list l) quantum).visited = pre ++ [q] := hvisited
    generalize a.frontChoice (a.list l) quantum = c at hq hc
    change (a.list l).filter _ = post
    rw [hps, List.filter_append, List.filter_cons_of_neg (by simp [hq])]
    have hgone : pre.filter (fun p => !(decide (p ∈ c.visited) && (a.proc p).barred) &&
        c.next != some p) = [] := by
      refine List.filter_eq_nil_iff.mpr fun r hr => ?_
      have hv : r ∈ c.visited := by rw [hc]; exact List.mem_append_left _ hr
      simp [hv, hpre r hr]
    rw [hgone, List.nil_append]
    refine List.filter_eq_self.mpr fun r hr => ?_
    have hrq : q ≠ r := fun e => (List.nodup_cons.mp hqpost).1 (e ▸ hr)
    have hv : r ∉ c.visited := by
      rw [hc, List.mem_append, List.mem_singleton]
      rintro (hrp | rfl)
      · exact hapart r hrp r (List.mem_cons_of_mem q hr) rfl
      · exact hrq rfl
    simp [hv, hq, hrq]
  rw [hpost]
  exact hps

theorem Decides.split {c : Choice} (h : Decides .roundRobin a b c)
    (hp : p ∈ b.list .readyQueue) :
    ∃ pre, (a.contest .roundRobin).list .readyQueue =
      pre ++ b.currentProcess :: b.list .readyQueue := by
  have hchoice : c = (a.contest .roundRobin).frontChoice
      ((a.contest .roundRobin).list .readyQueue) fun _ => some 10 :=
    (Option.some.inj h.selected).symm
  have hcurrent : b.currentProcess = c.target := by rw [h.result]; rfl
  have hlist : b.list .readyQueue = ((a.contest .roundRobin).commit c).list .readyQueue := by
    rw [h.result]; rfl
  rw [hlist] at hp
  cases hn : c.next with
  | none =>
      obtain ⟨hmem, hbarred, _⟩ := mem_list_commit.mp hp
      have hvisited : c.visited = (a.contest .roundRobin).list .readyQueue := by
        rw [hchoice] at hn ⊢
        exact scan_none hn
      exact absurd ⟨hvisited ▸ hmem, h.sound.idle hn .readyQueue List.mem_cons_self p hmem⟩ hbarred
  | some q =>
      have hq : b.currentProcess = q := by rw [hcurrent, Choice.target, hn]; rfl
      rw [hq, hlist]
      rw [hchoice] at hn ⊢
      exact list_commit_front (h.contest.nodup .readyQueue) hn

/-- One operation, from the point of view of a process that stays linked. -/
theorem Law.ahead_step (h : a.Law) (hc : a.Current) (hop : op.Enabled a.toGlobals)
    (hb : a.step .roundRobin op = some b) (hp : p ∈ a.list .readyQueue)
    (hp' : p ∈ b.list .readyQueue) :
    if a.decides .roundRobin op then ∃ pre, ahead p (a.list .readyQueue) =
      pre ++ b.currentProcess :: ahead p (b.list .readyQueue)
    else ahead p (b.list .readyQueue) = ahead p (a.list .readyQueue) := by
  have hbefore := h.prefix_before hc hop
  rcases h.step_cases hc hop hb with ⟨hd, c, hdec⟩ | ⟨hd, rfl⟩
  · have hlaw := (h.calm_before .roundRobin hc hop).law
    have hcontest := hbefore.trans (hlaw.prefix_contest (h.outgoing_before hc hop))
    obtain ⟨pre, hpre⟩ := hdec.split hp'
    have hnodup := hdec.contest.nodup .readyQueue
    rw [hpre] at hnodup
    obtain ⟨_, hcons, hapart⟩ := List.nodup_append.mp hnodup
    have hout : p ∉ pre := fun hm => hapart p hm p (List.mem_cons_of_mem _ hp') rfl
    have hne : p ≠ b.currentProcess := fun e => (List.nodup_cons.mp hcons).1 (e ▸ hp')
    rw [if_pos hd]
    refine ⟨pre, ?_⟩
    rw [← ahead_prefix hp hcontest, hpre, ahead_append hout, ahead_cons hne]
  · rw [if_neg (by rw [hd]; exact Bool.false_ne_true)]
    exact ahead_prefix hp hbefore

/-! ## Slices -/

/-- No process has more than the slice a decision gives. -/
def Capped (a : Sched) : Prop := ∀ p, p < a.nProcesses → (a.proc p).counter ≤ 10

theorem Capped.prim (h : a.Capped) (hb : Prim .roundRobin op a b) : b.Capped := by
  refine hb.forall_proc (P := fun r => r.counter ≤ 10) h (fun p r r' hw hcap => ?_) fun _ => le_rfl
  rcases hw.counter_le with hle | hzero
  · exact hle.trans hcap
  · rw [hzero]; decide

theorem Capped.dispatch {c : Choice} (h : a.Capped) (hc : a.select .roundRobin = some c) :
    (a.dispatch c).Capped := by
  intro p hp
  rw [field_dispatch a c p Proc.counter (fun _ _ => rfl) fun _ _ => rfl, proc_commit]
  obtain rfl := Option.some.inj hc
  change (if _ then (10 : Int) else (a.proc p).counter) ≤ 10
  split
  next => exact le_rfl
  next => exact h p hp

theorem Capped.step (hlaw : a.Law) (hc : a.Current) (h : a.Capped) (hop : op.Enabled a.toGlobals)
    (hb : a.step .roundRobin op = some b) : b.Capped :=
  hlaw.prim_invariant hc hop (fun _ _ hcap => hcap.prim) (fun _ _ _ hs hcap => hcap.dispatch hs)
    hb h

/-- The process `p` is the current one, with a slice of at most `m`. -/
def Holds (p : Pid) (m : Int) (a : Sched) : Prop :=
  a.currentProcess = p ∧ p < a.nProcesses ∧ (a.proc p).counter ≤ m

theorem Holds.prim {m : Int} {alg : Algorithm} (hm : 0 ≤ m) (hop : op ≠ .timerTick)
    (h : Holds p m a) (hb : Prim alg op a b) : Holds p m b := by
  obtain ⟨hcur, hlt, hle⟩ := h
  cases hb with
  | write q f hf =>
      refine ⟨hcur, hlt, ?_⟩
      rw [proc_modify]
      split
      next e =>
        subst e
        rcases hf.counter_le with hw | hzero
        · exact hw.trans hle
        · rw [hzero]; exact hm
      next => exact hle
  | enqueue q hq hqlt =>
      rw [Holds, toGlobals_enqueue, proc_enqueue]
      refine ⟨hcur, hlt, ?_⟩
      split <;> exact hle
  | enroll hu hcurlt hn =>
      refine ⟨hcur, Nat.lt_succ_of_lt hlt, ?_⟩
      rw [proc_enroll, if_neg (Nat.ne_of_lt hlt)]
      exact hle
  | count he => exact absurd he hop
  | boost policy he hp => exact absurd he hop
  | demote policy he hp hd hu hl => exact absurd he hop
  | relevel q v level he => exact ⟨hcur, hlt, hle⟩

/-- Without a tick and without a decision no slice grows. -/
theorem Law.slice_step (h : a.Law) (hc : a.Current) (hop : op.Enabled a.toGlobals)
    (hne : op ≠ .timerTick) (hd : a.decides .roundRobin op = false)
    (hb : a.step .roundRobin op = some b) {m : Int} (hm : 0 ≤ m) (hle : a.current.counter ≤ m) :
    b.current.counter ≤ m := by
  have hholds : Holds a.currentProcess m (a.before .roundRobin op) :=
    Prims.invariant (fun _ _ hh => hh.prim hm hne) (h.prims_before hc hop)
      ⟨rfl, hc.registered, hle⟩
  rcases h.step_cases hc hop hb with ⟨hd', _⟩ | ⟨_, rfl⟩
  · exact absurd (hd'.symm.trans hd) (by decide)
  · rw [current, hholds.1]
    exact hholds.2.2

/-- A tick without a decision, outside critical sections, leaves some of the slice. -/
theorem Law.slice_tick (h : a.Law) (hc : a.Current) (hg : a.current.preemptDisabled = 0)
    (hd : a.decides .roundRobin .timerTick = false)
    (hb : a.step .roundRobin .timerTick = some b) :
    b.current.counter = a.current.counter - 1 ∧ 0 < b.current.counter := by
  have hop : Op.timerTick.Enabled a.toGlobals := trivial
  have hnot : (a.accountTick .roundRobin).sliceOver = false :=
    (Bool.and_true _).symm.trans hd
  have hbefore : a.before .roundRobin .timerTick = a.accountTick .roundRobin := by
    rw [before, hnot]
    rfl
  rcases h.step_cases hc hop hb with ⟨hd', _⟩ | ⟨_, rfl⟩
  · exact absurd (hd'.symm.trans hd) (by decide)
  · rw [hbefore, current_accountTick]
    refine ⟨rfl, ?_⟩
    rw [sliceOver, current_accountTick] at hnot
    simp only [Proc.tick, hg, le_refl, decide_true, Bool.and_true, decide_eq_false_iff_not,
      not_le] at hnot
    exact hnot

end Sched

/-! ## Runs -/

/-- The distance of `p` from the head. -/
def KState.position (s : KState) (p : Pid) : Nat := (s.contents .readyQueue).idxOf p

/-- A part of a run in which `p` stays linked, with the processes dispatched in it. -/
inductive Waits (p : Pid) (s : KState) : List Pid → KState → Prop
  | refl (h : p ∈ s.contents .readyQueue) : Waits p s [] s
  | step {ds t u} (op : Op) (h : Waits p s ds t) (hop : op.Enabled t.toGlobals)
      (hu : step .roundRobin t op = some u) (hp : p ∈ u.contents .readyQueue) :
      Waits p s (ds ++ if decides .roundRobin t op then [u.currentProcess] else []) u

theorem Waits.mem_start {p : Pid} {s t : KState} {ds : List Pid} (h : Waits p s ds t) :
    p ∈ s.contents .readyQueue := by
  induction h with
  | refl h => exact h
  | step op _ _ _ _ ih => exact ih

/-- A part of a run without decisions, with the number of its ticks, none of which
meets an open critical section. -/
inductive Undecided (s : KState) : Nat → KState → Prop
  | refl : Undecided s 0 s
  | step {n t u} (op : Op) (h : Undecided s n t) (hop : op.Enabled t.toGlobals)
      (hne : op ≠ .timerTick) (hd : decides .roundRobin t op = false)
      (hu : step .roundRobin t op = some u) : Undecided s n u
  | tick {n t u} (h : Undecided s n t) (hg : t.current.preemptDisabled = 0)
      (hd : decides .roundRobin t .timerTick = false)
      (hu : step .roundRobin t .timerTick = some u) : Undecided s (n + 1) u

/-- The slices that a run starts with are no longer than the ones it gives. -/
def Sliced (s : KState) : Prop := ∀ p, s.processes p = some p → (s.pcb p).counter ≤ 10

/-- The states of the runs of Round Robin. -/
def SlicedReachable : KState → Prop :=
  Transition.Reachable (fun s => Start s ∧ Sliced s) (Next .roundRobin)

theorem sliced_boot (timer : Nat → BitVec 32) : Sliced (boot timer) :=
  fun _ _ => (by decide : initPcb.counter ≤ 10)

namespace Represents

variable {s t : KState} {a : Sched} {op : Op} {p : Pid}

theorem decides_eq (h : Represents s a) (alg : Algorithm) :
    Demoos.decides alg s op = a.decides alg op := h.refines.decides alg h.law op

/-- The processes in front of `p` at first are those that are gone, among them the
dispatched ones, and those that are still there. -/
theorem waits {ds : List Pid} (h : Represents s a) (hw : Waits p s ds t) :
    ∃ b, Represents t b ∧ p ∈ b.list .readyQueue ∧ ∃ gone, ds.Sublist gone ∧
      ahead p (a.list .readyQueue) = gone ++ ahead p (b.list .readyQueue) := by
  induction hw with
  | refl hp => exact ⟨a, h, h.contents_eq .readyQueue ▸ hp, [], .slnil, rfl⟩
  | @step ds t u op hw hop hu hp ih =>
      obtain ⟨b, hb, hpb, gone, hsub, hahead⟩ := ih
      obtain ⟨c, hc, hrep⟩ := hb.step hop hu
      have hop' : op.Enabled b.toGlobals := by rw [← hb.refines.globals]; exact hop
      have hpc : p ∈ c.list .readyQueue := hrep.contents_eq .readyQueue ▸ hp
      have hone := hb.law.ahead_step hb.current hop' hc hpb hpc
      refine ⟨c, hrep, hpc, ?_⟩
      rw [hb.decides_eq, hrep.refines.currentProcess]
      split
      next hd =>
        rw [if_pos hd] at hone
        obtain ⟨pre, hpre⟩ := hone
        refine ⟨gone ++ (pre ++ [c.currentProcess]), hsub.append (List.sublist_append_right _ _), ?_⟩
        rw [hahead, hpre]
        simp only [List.append_assoc, List.singleton_append]
      next hd =>
        rw [if_neg hd] at hone
        rw [List.append_nil, hone]
        exact ⟨gone, hsub, hahead⟩

theorem undecided {n : Nat} (h : Represents s a) (hcap : a.Capped) (hq : Undecided s n t) :
    ∃ b, Represents t b ∧ n ≤ 9 ∧ b.current.counter ≤ 10 - n := by
  induction hq with
  | refl => exact ⟨a, h, Nat.zero_le 9, hcap a.currentProcess h.current.registered⟩
  | @step n t u op hq hop hne hd hu ih =>
      obtain ⟨b, hb, hn, hle⟩ := ih
      obtain ⟨c, hc, hrep⟩ := hb.step hop hu
      have hop' : op.Enabled b.toGlobals := by rw [← hb.refines.globals]; exact hop
      rw [hb.decides_eq] at hd
      exact ⟨c, hrep, hn, hb.law.slice_step hb.current hop' hne hd hc (by omega) hle⟩
  | @tick n t u hq hg hd hu ih =>
      obtain ⟨b, hb, hn, hle⟩ := ih
      obtain ⟨c, hc, hrep⟩ := hb.step (show Op.timerTick.Enabled _ from trivial) hu
      rw [hb.decides_eq] at hd
      have hg' : b.current.preemptDisabled = 0 :=
        (congrArg Proc.preemptDisabled hb.refines.current).symm.trans hg
      obtain ⟨heq, hpos⟩ := hb.law.slice_tick hb.current hg' hd hc
      exact ⟨c, hrep, by omega, by omega⟩

end Represents

theorem SlicedReachable.capped {s : KState} (h : SlicedReachable s) :
    ∃ a, Represents s a ∧ a.Capped := by
  obtain ⟨s₀, ⟨h₀, hsliced⟩, hrun⟩ := h
  refine h₀.represents.run (fun p hp => ?_) hrun fun a op b hlaw hc hcap hop hb =>
    hcap.step hlaw hc hop hb
  exact hsliced p (h₀.represents.registered_iff.mpr hp)

/-- Bounded overtaking: while `p` stays linked no process is dispatched twice, every
decision brings `p` nearer to the head, and so there are no more decisions than
processes in front of it.  Ten ticks outside critical sections bring a decision. -/
theorem boundedOvertaking {s : KState} (h : SlicedReachable s) :
    (∀ p ds t, Waits p s ds t → ds.Nodup ∧ ds.length + t.position p ≤ s.position p) ∧
    (∀ p op t, p ∈ s.contents .readyQueue → op.Enabled s.toGlobals →
      step .roundRobin s op = some t → p ∈ t.contents .readyQueue →
      decides .roundRobin s op = true → t.position p < s.position p) ∧
    ∀ n t, Undecided s n t → n < 10 := by
  obtain ⟨a, ha, hcap⟩ := h.capped
  have hwaits : ∀ p ds t, Waits p s ds t →
      ds.Nodup ∧ ds.length + t.position p ≤ s.position p := by
    intro p ds t hw
    obtain ⟨b, hb, hpb, gone, hsub, hahead⟩ := ha.waits hw
    have hp : p ∈ a.list .readyQueue := ha.contents_eq .readyQueue ▸ hw.mem_start
    have hnodup : (gone ++ ahead p (b.list .readyQueue)).Nodup := by
      rw [← hahead]
      exact (ha.law.nodup .readyQueue).sublist (ahead_sublist _ _)
    refine ⟨(List.nodup_append.mp hnodup).1.sublist hsub, ?_⟩
    have hlength := congrArg List.length hahead
    rw [List.length_append, length_ahead hp, length_ahead hpb] at hlength
    rw [KState.position, KState.position, ha.contents_eq, hb.contents_eq, hlength]
    exact Nat.add_le_add_right hsub.length_le _
  refine ⟨hwaits, fun p op t hp hop ht hp' hd => ?_, fun n t hq => ?_⟩
  · have hone := (hwaits p _ t (.step op (.refl hp) hop ht hp')).2
    rw [if_pos hd] at hone
    exact Nat.lt_of_lt_of_le (Nat.lt_add_of_pos_left Nat.one_pos) hone
  · obtain ⟨_, _, hn, _⟩ := ha.undecided hcap hq
    exact Nat.lt_succ_of_le hn

/-- The third of three processes waits for one decision at most, once the first
runs. -/
theorem boundedOvertaking_third : ∃ s, afterBoot .roundRobin [.copyProcess true,
    .copyProcess true, .copyProcess true, .timerTick] = some s ∧ s.position 3 = 1 ∧
    ∀ ds t, Waits 3 s ds t → ds.Nodup ∧ ds.length + t.position 3 ≤ 1 := by
  obtain ⟨s, hs, _, hpos⟩ := exists_afterBoot .roundRobin [.copyProcess true,
    .copyProcess true, .copyProcess true, .timerTick] (·.position 3 = 1) (by decide +kernel)
  have hreach : SlicedReachable s := ⟨_, ⟨.boot _, sliced_boot _⟩, run_runOps hs⟩
  refine ⟨s, hs, hpos, fun ds t hw => ?_⟩
  rw [← hpos]
  exact (boundedOvertaking hreach).1 3 ds t hw

end Demoos
