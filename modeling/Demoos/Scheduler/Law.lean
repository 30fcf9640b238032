import Demoos.Scheduler.Abstract
import Mathlib.Data.List.Perm.Subperm

/-!
# The law of the lists

`Sched.Law` is the invariant behind everything the scheduler promises.  The
registered processes are the pids below `n_processes`.  The lists share no
process and repeat none, every queued process is a registered one in state
`ready`, and every registered process in state `ready`, init apart, is queued.

The law says nothing about the current process.  `Sched.Current` is the part
that holds between operations, where the current process is running unless it
is init, and `Sched.Outgoing` the weaker part that holds when a decision is
made, where it may have blocked or died.

Two kinds of change need an argument.  `Law.wake` is the pair of a change of
state and an insertion, and `Law.dispatch` is a whole decision.
-/

namespace Demoos

open Function (update update_self update_of_ne)

/-- The states of a process that waits for somebody to wake it. -/
def ProcessState.blocked : ProcessState → Bool
  | .waitingUartInput | .waitingToReceiveMessage | .waitingToSendMessage
  | .waitingAnotherProcess => true
  | _ => false

namespace Sched

structure Law (a : Sched) : Prop where
  initRegistered : 0 < a.nProcesses
  bound : a.nProcesses ≤ maxProcesses
  table : ∀ i, a.processes i = if i < a.nProcesses then some i else none
  nodup : ∀ l, (a.list l).Nodup
  apart : ∀ l l' p, p ∈ a.list l → p ∈ a.list l' → l = l'
  queued : ∀ l p, p ∈ a.list l →
    p ≠ initProcess ∧ p < a.nProcesses ∧ (a.proc p).state = .ready
  linked : ∀ p, p ≠ initProcess → p < a.nProcesses → (a.proc p).state = .ready →
    ∃ l, p ∈ a.list l

/-- The part of the law that a decision needs: what is queued is ready, but not all
that is ready need be queued. -/
structure Lists (a : Sched) : Prop where
  initRegistered : 0 < a.nProcesses
  bound : a.nProcesses ≤ maxProcesses
  table : ∀ i, a.processes i = if i < a.nProcesses then some i else none
  nodup : ∀ l, (a.list l).Nodup
  apart : ∀ l l' p, p ∈ a.list l → p ∈ a.list l' → l = l'
  queued : ∀ l p, p ∈ a.list l →
    p ≠ initProcess ∧ p < a.nProcesses ∧ (a.proc p).state = .ready

theorem Law.lists {a : Sched} (h : a.Law) : a.Lists :=
  ⟨h.initRegistered, h.bound, h.table, h.nodup, h.apart, h.queued⟩

/-- The current process between operations. -/
structure Current (a : Sched) : Prop where
  registered : a.currentProcess < a.nProcesses
  running : a.currentProcess ≠ initProcess → a.current.state = .running

/-- The current process when a decision is made. -/
structure Outgoing (a : Sched) : Prop where
  registered : a.currentProcess < a.nProcesses
  notReady : a.currentProcess ≠ initProcess → a.current.state ≠ .ready

theorem Current.outgoing {a : Sched} (h : a.Current) : a.Outgoing where
  registered := h.registered
  notReady hne := by rw [h.running hne]; decide

/-! ## Consequences -/

namespace Lists

variable {a b : Sched} {p : Pid}

theorem unlinked (h : a.Lists) (hp : (a.proc p).state ≠ .ready) : a.Unlinked p :=
  fun l hl => hp (h.queued l p hl).2.2

/-- No list is longer than the process table. -/
theorem length_le (h : a.Lists) (l : ReadyList) : (a.list l).length ≤ maxProcesses := by
  have hsub : a.list l ⊆ List.range a.nProcesses := fun p hp =>
    List.mem_range.mpr (h.queued l p hp).2.1
  have hlen := (List.subperm_of_subset (h.nodup l) hsub).length_le
  rw [List.length_range] at hlen
  exact hlen.trans h.bound

/-- The lists depend on the table, their processes and the states only. -/
theorem congr (h : a.Lists) (hp : b.processes = a.processes) (hn : b.nProcesses = a.nProcesses)
    (hl : b.list = a.list) (hs : ∀ p, (b.proc p).state = (a.proc p).state) : b.Lists where
  initRegistered := by rw [hn]; exact h.initRegistered
  bound := by rw [hn]; exact h.bound
  table := by rw [hp, hn]; exact h.table
  nodup := by rw [hl]; exact h.nodup
  apart := by rw [hl]; exact h.apart
  queued := by simp only [hl, hn, hs]; exact h.queued

end Lists

namespace Law

variable {a b : Sched} {p : Pid}

theorem unlinked (h : a.Law) (hp : (a.proc p).state ≠ .ready) : a.Unlinked p :=
  h.lists.unlinked hp

theorem length_le (h : a.Law) (l : ReadyList) : (a.list l).length ≤ maxProcesses :=
  h.lists.length_le l

theorem unlinked_init (h : a.Law) : a.Unlinked initProcess := fun l hl => (h.queued l _ hl).1 rfl

theorem unlinked_of_le (h : a.Law) (hp : a.nProcesses ≤ p) : a.Unlinked p :=
  fun l hl => absurd (h.queued l p hl).2.1 (Nat.not_lt.mpr hp)

theorem unlinked_current (h : a.Law) (hc : a.Outgoing) : a.Unlinked a.currentProcess := by
  by_cases hi : a.currentProcess = initProcess
  · rw [hi]; exact h.unlinked_init
  · exact h.unlinked (hc.notReady hi)

theorem registered_iff (h : a.Law) : a.processes p = some p ↔ p < a.nProcesses := by
  rw [h.table]
  split <;> simp_all

/-! ## Changes of the fields -/

/-- The law depends on the table, the lists and the states only. -/
theorem congr (h : a.Law) (hp : b.processes = a.processes) (hn : b.nProcesses = a.nProcesses)
    (hl : b.list = a.list) (hs : ∀ p, (b.proc p).state = (a.proc p).state) : b.Law where
  initRegistered := by rw [hn]; exact h.initRegistered
  bound := by rw [hn]; exact h.bound
  table := by rw [hp, hn]; exact h.table
  nodup := by rw [hl]; exact h.nodup
  apart := by rw [hl]; exact h.apart
  queued := by simp only [hl, hn, hs]; exact h.queued
  linked := by simp only [hl, hn, hs]; exact h.linked

theorem modify (h : a.Law) {f : Proc → Proc} (hf : (f (a.proc p)).state = (a.proc p).state) :
    (a.modify p f).Law := by
  refine h.congr rfl rfl rfl fun q => ?_
  rw [proc_modify]
  split
  next e => rw [e, hf]
  next => rfl

/-- A process outside the lists may take any state but `ready`, and init any
state. -/
theorem modify_unlinked (h : a.Law) {f : Proc → Proc} (hp : a.Unlinked p)
    (hf : p ≠ initProcess → (f (a.proc p)).state ≠ .ready) : (a.modify p f).Law where
  initRegistered := h.initRegistered
  bound := h.bound
  table := h.table
  nodup := h.nodup
  apart := h.apart
  queued l q hq := by
    rw [proc_modify, if_neg (ne_of_mem_of_not_mem hq (hp l))]
    exact h.queued l q hq
  linked q hq hlt hs := by
    rw [proc_modify] at hs
    split at hs
    next e => subst e; exact absurd hs (hf hq)
    next => exact h.linked q hq hlt hs

end Law

/-! ## Insertion -/

theorem place_perm (alg : Algorithm) (est : Pid → Int) (p : Pid) (xs : List Pid) :
    (place alg est p xs).Perm (p :: xs) := by
  cases alg with
  | sjf => exact List.perm_orderedInsert _ p xs
  | _ => exact List.perm_append_comm

theorem mem_place {alg : Algorithm} {est : Pid → Int} {p q : Pid} {xs : List Pid} :
    q ∈ place alg est p xs ↔ q = p ∨ q ∈ xs := by
  rw [(place_perm alg est p xs).mem_iff, List.mem_cons]

theorem nodup_place {alg : Algorithm} {est : Pid → Int} {p : Pid} {xs : List Pid} (hp : p ∉ xs)
    (hxs : xs.Nodup) : (place alg est p xs).Nodup :=
  (place_perm alg est p xs).nodup_iff.mpr (List.nodup_cons.mpr ⟨hp, hxs⟩)

section Enqueue

variable (alg : Algorithm) (a : Sched) (p : Pid)

@[simp] theorem toGlobals_enqueue : (a.enqueue alg p).toGlobals = a.toGlobals := by
  unfold enqueue
  split <;> rfl

theorem proc_enqueue (q : Pid) :
    (a.enqueue alg p).proc q =
      if q = p ∧ p ≠ initProcess then (a.proc q).makeReady else a.proc q := by
  unfold enqueue
  split
  next h => simp [h]
  next h => simp [h, proc_modify]

theorem mem_list_enqueue (l : ReadyList) (q : Pid) :
    q ∈ (a.enqueue alg p).list l ↔
      q ∈ a.list l ∨ q = p ∧ p ≠ initProcess ∧ l = a.home alg p := by
  unfold enqueue
  split
  next h => simp [h]
  next h =>
    rw [list_setList]
    split
    next e => rw [mem_place, e]; tauto
    next e => simp [e]

end Enqueue

/-- A registered process outside the lists changes and goes into its list. -/
theorem Lists.wake {a : Sched} {p : Pid} (h : a.Lists) (alg : Algorithm) (hp : a.Unlinked p)
    (hlt : p < a.nProcesses) (f : Proc → Proc) : ((a.modify p f).enqueue alg p).Lists := by
  have hmem := mem_list_enqueue alg (a.modify p f) p
  have hproc := proc_enqueue alg (a.modify p f) p
  have hglob := toGlobals_enqueue alg (a.modify p f) p
  refine ⟨?_, ?_, ?_, fun l => ?_, fun l l' q hq hq' => ?_, fun l q hq => ?_⟩
  · exact (congrArg Globals.nProcesses hglob) ▸ h.initRegistered
  · exact (congrArg Globals.nProcesses hglob) ▸ h.bound
  · rw [hglob]; exact h.table
  · unfold enqueue
    split
    next => exact h.nodup l
    next =>
      rw [list_setList]
      split
      next e => exact nodup_place (hp _) (h.nodup _)
      next => exact h.nodup l
  · rw [hmem] at hq hq'
    rcases hq with hq | ⟨rfl, _, hl⟩ <;> rcases hq' with hq' | ⟨hqp, _, hl'⟩
    · exact h.apart l l' q hq hq'
    · exact absurd (hqp ▸ hq) (hp l)
    · exact absurd hq' (hp l')
    · rw [hl, hl']
  · rw [hproc, hglob]
    rcases (hmem l q).mp hq with hq | ⟨rfl, hi, _⟩
    · have hne : q ≠ p := ne_of_mem_of_not_mem hq (hp l)
      rw [if_neg fun hc => hne hc.1, proc_modify, if_neg hne]
      exact h.queued l q hq
    · rw [if_pos ⟨rfl, hi⟩]
      exact ⟨hi, hlt, rfl⟩

/-- And if everybody else that is ready was queued, everybody is. -/
theorem Law.wake {a : Sched} {p : Pid} (h : a.Law) (alg : Algorithm) (hp : a.Unlinked p)
    (hlt : p < a.nProcesses) (f : Proc → Proc) : ((a.modify p f).enqueue alg p).Law := by
  have hlists := h.lists.wake alg hp hlt f
  refine ⟨hlists.initRegistered, hlists.bound, hlists.table, hlists.nodup, hlists.apart,
    hlists.queued, fun q hq hqlt hs => ?_⟩
  have hmem := mem_list_enqueue alg (a.modify p f) p
  rw [toGlobals_enqueue] at hqlt
  by_cases hqp : q = p
  · subst hqp
    exact ⟨_, (hmem _ q).mpr (.inr ⟨rfl, hq, rfl⟩)⟩
  · rw [proc_enqueue, if_neg fun hc => hqp hc.1, proc_modify, if_neg hqp] at hs
    obtain ⟨l, hl⟩ := h.linked q hq hqlt hs
    exact ⟨l, (hmem l q).mpr (.inl hl)⟩

/-! ## Wake-ups -/

/-- `waits` recognises blocked processes and `wake` makes one ready. -/
structure Waker (waits : Proc → Bool) (wake : Proc → Proc) : Prop where
  blocked : ∀ b, waits b = true → b.state.blocked = true
  ready : ∀ b, (wake b).state = .ready
  pendingSignals : ∀ b, (wake b).pendingSignals = b.pendingSignals

theorem Waker.notReady {waits : Proc → Bool} {wake : Proc → Proc} (hw : Waker waits wake)
    {b : Proc} (hb : waits b = true) : b.state ≠ .ready := by
  intro he
  have := hw.blocked b hb
  rw [he] at this
  exact absurd this (by decide)

theorem Waker.makeReady {waits : Proc → Bool} {wake : Proc → Proc} (hw : Waker waits wake)
    (b : Proc) : (wake b).makeReady = wake b := by
  rw [Proc.makeReady, ← hw.ready b]

theorem waker_state (st : ProcessState) (hst : st.blocked = true) :
    Waker (·.state == st) Proc.makeReady where
  blocked b hb := by rw [eq_of_beq hb]; exact hst
  ready _ := rfl
  pendingSignals _ := rfl

theorem waker_waitsFor (pid : Pid) : Waker (Proc.waitsFor pid) Proc.endWait where
  blocked b hb := by
    rw [Proc.waitsFor, Bool.and_eq_true] at hb
    rw [eq_of_beq hb.1]
    rfl
  ready _ := rfl
  pendingSignals _ := rfl

section WakeAll

variable {a : Sched} {waits : Proc → Bool} {wake : Proc → Proc} (alg : Algorithm)

/-- One slot of a loop over `processes[]`, when the table is the identity. -/
theorem wakeSlot_eq (h : a.Law) (i : Nat) :
    a.wakeSlot alg waits wake i =
      if i < a.nProcesses ∧ waits (a.proc i) then (a.modify i wake).enqueue alg i else a := by
  unfold wakeSlot
  rw [h.table]
  by_cases hi : i < a.nProcesses <;> simp [hi]

theorem Law.wakeSlot (h : a.Law) (hw : Waker waits wake) (i : Nat) :
    (a.wakeSlot alg waits wake i).Law := by
  rw [wakeSlot_eq alg h]
  split
  next hi => exact h.wake alg (h.unlinked (hw.notReady hi.2)) hi.1 wake
  next => exact h

theorem toGlobals_wakeSlot (h : a.Law) (i : Nat) :
    (a.wakeSlot alg waits wake i).toGlobals = a.toGlobals := by
  rw [wakeSlot_eq alg h]
  split <;> simp

theorem proc_wakeSlot (h : a.Law) (hw : Waker waits wake) (i p : Nat) :
    (a.wakeSlot alg waits wake i).proc p =
      if p = i ∧ p < a.nProcesses ∧ waits (a.proc p) then wake (a.proc p) else a.proc p := by
  have hwoken : ((a.modify i wake).enqueue alg i).proc p = (a.modify i wake).proc p := by
    rw [proc_enqueue]
    split
    next hp => rw [proc_modify, if_pos hp.1, hw.makeReady]
    next => rfl
  rw [wakeSlot_eq alg h]
  by_cases hp : p = i
  · subst hp
    by_cases hc : p < a.nProcesses ∧ waits (a.proc p) = true
    · rw [if_pos hc, if_pos ⟨rfl, hc⟩, hwoken, proc_modify, if_pos rfl]
    · rw [if_neg hc, if_neg fun hn => hc hn.2]
  · by_cases hc : i < a.nProcesses ∧ waits (a.proc i) = true
    · rw [if_pos hc, if_neg fun hn => hp hn.1, hwoken, proc_modify, if_neg hp]
    · rw [if_neg hc, if_neg fun hn => hp hn.1]

theorem wakeAll_succ (a : Sched) (n : Nat) :
    a.wakeAll alg waits wake (n + 1) = (a.wakeAll alg waits wake n).wakeSlot alg waits wake n := by
  rw [wakeAll, List.range_succ, List.foldl_append]
  rfl

theorem Law.wakeAll (h : a.Law) (hw : Waker waits wake) (n : Nat) :
    (a.wakeAll alg waits wake n).Law := by
  induction n with
  | zero => exact h
  | succ n ih =>
      rw [wakeAll_succ]
      exact ih.wakeSlot alg hw n

theorem toGlobals_wakeAll (h : a.Law) (hw : Waker waits wake) (n : Nat) :
    (a.wakeAll alg waits wake n).toGlobals = a.toGlobals := by
  induction n with
  | zero => rfl
  | succ n ih => rw [wakeAll_succ, toGlobals_wakeSlot alg (h.wakeAll alg hw n), ih]

/-- The loop wakes exactly the registered processes that wait. -/
theorem proc_wakeAll (h : a.Law) (hw : Waker waits wake) (n p : Nat) :
    (a.wakeAll alg waits wake n).proc p =
      if p < n ∧ p < a.nProcesses ∧ waits (a.proc p) then wake (a.proc p) else a.proc p := by
  induction n with
  | zero => simp [Sched.wakeAll]
  | succ n ih =>
      rw [wakeAll_succ, proc_wakeSlot alg (h.wakeAll alg hw n) hw,
        toGlobals_wakeAll alg h hw]
      by_cases hp : p = n
      · subst hp
        simp [ih]
      · have hlt : p < n + 1 ↔ p < n := by omega
        rw [if_neg fun hc => hp hc.1, ih]
        simp only [hlt]

end WakeAll

end Sched

end Demoos
