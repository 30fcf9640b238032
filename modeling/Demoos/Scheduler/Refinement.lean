import Demoos.Scheduler.Law

/-!
# The queue functions refine list operations

`Refines s a` relates a state of the code to a state of the abstract scheduler:
the same globals, the same PCB fields, and each queue of `s` represents the
list of `a` through the links.  No process is in two lists.

Each function of `Demoos.Scheduler.Queues` has one rule: from related states it
leads to related states, where the abstract side is an append, a removal or a
sorted insertion.
-/

namespace Demoos

open Function (update update_self update_of_ne)
open LinkedQueue

/-- The abstract state `a` is what the code's state `s` represents. -/
structure Refines (s : KState) (a : Sched) : Prop where
  globals : s.toGlobals = a.toGlobals
  proc : ∀ p, (s.pcb p).toProc = a.proc p
  holds : ∀ l, Holds s.links (s.queue l) (a.list l)
  apart : ∀ l l' p, p ∈ a.list l → p ∈ a.list l' → l = l'

/-! ## Links, ends and fields

What the queue functions write, in terms of the operations on links and ends. -/

section Writes

variable (s : KState) (l : ReadyList) (p : Pid)

theorem links_enqueueProcessTo (hp : p ≠ initProcess) :
    (enqueueProcessTo s l p).links = pushBackLinks s.links (s.queue l) p := by
  simp only [enqueueProcessTo, if_neg hp, pushBackLinks]
  cases ht : (s.queue l).tail <;> simp [ht]

theorem queue_enqueueProcessTo (hp : p ≠ initProcess) :
    (enqueueProcessTo s l p).queue = update s.queue l (pushBackEnds (s.queue l) p) := by
  simp only [enqueueProcessTo, if_neg hp, pushBackEnds]
  cases ht : (s.queue l).tail <;> simp [ht]

theorem toGlobals_enqueueProcessTo : (enqueueProcessTo s l p).toGlobals = s.toGlobals := by
  unfold enqueueProcessTo
  split
  next => rfl
  next => cases ht : (s.queue l).tail <;> simp [ht]

theorem toProc_enqueueProcessTo (hp : p ≠ initProcess) (q : Pid) :
    ((enqueueProcessTo s l p).pcb q).toProc = ((s.setState p .ready).pcb q).toProc := by
  simp only [enqueueProcessTo, if_neg hp]
  cases ht : (s.queue l).tail <;>
    simp [ht, KState.toProc_setNext, KState.setState, KState.toProc_modify]

theorem toProc_linkSorted (q : Pid) : ((linkSorted s l p).pcb q).toProc = (s.pcb q).toProc := by
  unfold linkSorted
  split
  next => rfl
  next =>
    split
    next => exact KState.toProc_setNext ..
    next =>
      dsimp only
      split <;> simp [KState.toProc_setNext]

/-- A process that is enqueued is ready, and nothing else happens to any process. -/
theorem toProc_enqueueProcess (alg : Algorithm) (hp : p ≠ initProcess) (q : Pid) :
    ((enqueueProcess alg s p).pcb q).toProc = ((s.setState p .ready).pcb q).toProc := by
  have hsorted : ((enqueueSjf s p).pcb q).toProc = ((s.setState p .ready).pcb q).toProc := by
    rw [enqueueSjf, enqueueSortedTo, if_neg hp, toProc_linkSorted, KState.setState, KState.setState,
      KState.toProc_modify, KState.toProc_modify, KState.toProc_setNext]
    rfl
  rw [enqueueProcess, if_neg hp]
  cases alg with
  | sjf => exact hsorted
  | roundRobin | fcfs | lottery | priorityAging | mlq | mlfq =>
      exact toProc_enqueueProcessTo s _ p hp q

theorem links_removeProcessFrom (previous : Option Pid) :
    (removeProcessFrom s l previous p).links = unlinkLinks s.links previous p := by
  unfold removeProcessFrom unlinkLinks
  cases previous <;> dsimp only <;> split <;> simp [KState.links]

theorem queue_removeProcessFrom (previous : Option Pid) :
    (removeProcessFrom s l previous p).queue =
      update s.queue l (unlinkEnds s.links (s.queue l) previous p) := by
  unfold removeProcessFrom unlinkEnds
  cases previous <;> dsimp only <;> split <;> simp_all [KState.links]

theorem toGlobals_removeProcessFrom (previous : Option Pid) :
    (removeProcessFrom s l previous p).toGlobals = s.toGlobals := by
  unfold removeProcessFrom
  cases previous <;> dsimp only <;> split <;> rfl

theorem toProc_removeProcessFrom (previous : Option Pid) (q : Pid) :
    ((removeProcessFrom s l previous p).pcb q).toProc = (s.pcb q).toProc := by
  unfold removeProcessFrom
  cases previous <;> dsimp only <;> split <;> simp [KState.toProc_setNext]

end Writes

namespace Refines

variable {s : KState} {a : Sched}

theorem currentProcess (h : Refines s a) : s.currentProcess = a.currentProcess :=
  congrArg Globals.currentProcess h.globals

theorem processes (h : Refines s a) : s.processes = a.processes :=
  congrArg Globals.processes h.globals

theorem nProcesses (h : Refines s a) : s.nProcesses = a.nProcesses :=
  congrArg Globals.nProcesses h.globals

theorem queueLevel (h : Refines s a) : s.queueLevel = a.queueLevel :=
  congrArg Globals.queueLevel h.globals

theorem current (h : Refines s a) : s.current.toProc = a.current := by
  rw [KState.current, h.currentProcess]
  exact h.proc _

/-! ## Writes that leave the lists alone -/

theorem modify (h : Refines s a) (p : Pid) (f : Proc → Proc) :
    Refines (s.modify p f) (a.modify p f) where
  globals := h.globals
  proc q := by rw [KState.toProc_modify, Sched.proc_modify, h.proc]
  holds l := by rw [KState.links_modify]; exact h.holds l
  apart := h.apart

/-- A write of the globals, the same on both sides. -/
theorem mapGlobals (h : Refines s a) (f : Globals → Globals) :
    Refines { s with toGlobals := f s.toGlobals } { a with toGlobals := f a.toGlobals } where
  globals := congrArg f h.globals
  proc := h.proc
  holds := h.holds
  apart := h.apart

theorem noteWrite (h : Refines s a) : Refines s.noteWrite a where
  globals := h.globals
  proc := h.proc
  holds := h.holds
  apart := h.apart

/-! ## Frame -/

/-- The queues other than `l` keep their lists when the links change at `p` and
at nodes of `l` only. -/
theorem holds_of_ne (h : Refines s a) {l l' : ReadyList} {next : Pid → Option Pid}
    (hne : l' ≠ l) (hlinks : ∀ q ∉ a.list l, q ∈ a.list l' → next q = s.links q) :
    Holds next (s.queue l') (a.list l') :=
  (h.holds l').frame fun q hq => hlinks q (fun hl => hne (h.apart l' l q hq hl)) hq

/-- Lists stay apart when `l` gets a list made of its own processes and `p`. -/
theorem apart_setList (h : Refines s a) (l : ReadyList) {p : Pid} (xs : List Pid)
    (hp : a.Unlinked p) (hxs : ∀ q ∈ xs, q = p ∨ q ∈ a.list l) (l₁ l₂ : ReadyList) (q : Pid)
    (h₁ : q ∈ (a.setList l xs).list l₁) (h₂ : q ∈ (a.setList l xs).list l₂) : l₁ = l₂ := by
  rw [Sched.list_setList] at h₁ h₂
  split at h₁ <;> split at h₂
  next e₁ e₂ => rw [e₁, e₂]
  next e₁ _ =>
      rcases hxs q h₁ with rfl | hq
      · exact absurd h₂ (hp l₂)
      · rw [e₁]; exact h.apart l l₂ q hq h₂
  next _ e₂ =>
      rcases hxs q h₂ with rfl | hq
      · exact absurd h₁ (hp l₁)
      · rw [e₂]; exact h.apart l₁ l q h₁ hq
  next => exact h.apart l₁ l₂ q h₁ h₂

/-- Lists stay apart when `l` gets some of its own processes. -/
theorem apart_sublist (h : Refines s a) (l : ReadyList) (xs : List Pid)
    (hxs : ∀ q ∈ xs, q ∈ a.list l) (l₁ l₂ : ReadyList) (q : Pid)
    (h₁ : q ∈ (a.setList l xs).list l₁) (h₂ : q ∈ (a.setList l xs).list l₂) : l₁ = l₂ := by
  have hmem : ∀ l', q ∈ (a.setList l xs).list l' → q ∈ a.list l' := by
    intro l' hq
    rw [Sched.list_setList] at hq
    split at hq
    next e => exact e ▸ hxs q hq
    next => exact hq
  exact h.apart l₁ l₂ q (hmem l₁ h₁) (hmem l₂ h₂)

/-- A change of the queue `l` and of links: the rule behind the four functions
below. -/
theorem relink (h : Refines s a) {s' : KState} {l : ReadyList} {xs : List Pid}
    (hglobals : s'.toGlobals = s.toGlobals) (hproc : ∀ p, (s'.pcb p).toProc = (s.pcb p).toProc)
    (hl : Holds s'.links (s'.queue l) xs)
    (hqueue : ∀ l' ≠ l, s'.queue l' = s.queue l')
    (hlinks : ∀ l' ≠ l, ∀ q ∈ a.list l', q ∉ a.list l → s'.links q = s.links q)
    (hapart : ∀ l₁ l₂ q, q ∈ (a.setList l xs).list l₁ → q ∈ (a.setList l xs).list l₂ → l₁ = l₂) :
    Refines s' (a.setList l xs) where
  globals := hglobals.trans h.globals
  proc p := (hproc p).trans (h.proc p)
  holds l' := by
    rw [Sched.list_setList]
    split
    next e => exact e ▸ hl
    next hne =>
      rw [hqueue l' hne]
      exact h.holds_of_ne hne fun q hql hq => hlinks l' hne q hq hql
  apart := hapart

/-! ## Enqueue -/

theorem enqueueProcessTo (h : Refines s a) (l : ReadyList) {p : Pid} (hinit : p ≠ initProcess)
    (hp : a.Unlinked p) :
    Refines (Demoos.enqueueProcessTo s l p)
      ((a.modify p Proc.makeReady).setList l (a.list l ++ [p])) := by
  refine (h.modify p Proc.makeReady).relink ?_ ?_ ?_ ?_ ?_ ?_
  · exact toGlobals_enqueueProcessTo s l p
  · exact toProc_enqueueProcessTo s l p hinit
  · rw [links_enqueueProcessTo s l p hinit, queue_enqueueProcessTo s l p hinit, update_self]
    exact (h.holds l).pushBack (hp l)
  · intro l' hne
    rw [queue_enqueueProcessTo s l p hinit, update_of_ne hne]
    rfl
  · intro l' _ q hq hql
    rw [links_enqueueProcessTo s l p hinit, KState.links_modify]
    exact pushBackLinks_of_ne (ne_of_mem_of_not_mem hq (hp l'))
      fun ht => hql ((h.holds l).tail_mem ht)
  · exact h.apart_setList l _ hp fun q hq => by simpa [or_comm] using hq

/-- Both insertions start by clearing the link and setting the state. -/
theorem makeReady (h : Refines s a) {p : Pid} (hp : a.Unlinked p) :
    Refines ((s.noteWrite.setNext p none).setState p .ready) (a.modify p Proc.makeReady) := by
  refine Refines.modify (f := Proc.makeReady) ?_ p
  exact {
    globals := h.globals
    proc := fun q => by rw [KState.toProc_setNext]; exact h.proc q
    holds := fun l => by
      rw [KState.links_setNext]
      exact (h.holds l).frame fun q hq => update_of_ne (ne_of_mem_of_not_mem hq (hp l)) _ _
    apart := h.apart }

theorem estBurst (h : Refines s a) (p : Pid) : (s.pcb p).estBurst = a.est p := by
  rw [Sched.est, ← h.proc p]

/-- The walk of `enqueue_sorted_to` stops in front of the place of the sorted
insertion. -/
theorem sortedPosition_eq (h : Refines s a) {l : ReadyList} (p : Pid) {ys : List Pid} :
    ∀ (fuel : Nat) (xs : List Pid) (c : Pid), ys.length ≤ fuel → a.list l = xs ++ c :: ys →
      ∃ xs' ys', a.list l = xs' ++ sortedPosition s (a.est p) fuel c :: ys' ∧
        xs' ++ sortedPosition s (a.est p) fuel c :: p :: ys' =
          xs ++ c :: Sched.insertSorted a.est p ys := by
  induction ys with
  | nil =>
      intro fuel xs c _ hl
      have hnext : (s.pcb c).nextReady = none := (hl ▸ h.holds l).next_eq
      have hpos : sortedPosition s (a.est p) fuel c = c := by
        cases fuel with
        | zero => rfl
        | succ n => simp [sortedPosition, hnext]
      rw [hpos]
      exact ⟨xs, [], hl, rfl⟩
  | cons b ys ih =>
      intro fuel xs c hf hl
      have hnext : (s.pcb c).nextReady = some b := (hl ▸ h.holds l).next_eq
      cases fuel with
      | zero => simp at hf
      | succ n =>
          simp only [sortedPosition, hnext, h.estBurst]
          by_cases hlt : a.est p < a.est b
          · rw [if_pos hlt]
            refine ⟨xs, b :: ys, hl, ?_⟩
            simp [Sched.insertSorted, List.orderedInsert, hlt]
          · rw [if_neg hlt]
            obtain ⟨xs', ys', hl', hins⟩ :=
              ih n (xs ++ [c]) b (by simpa using hf) (by simpa using hl)
            refine ⟨xs', ys', hl', ?_⟩
            simp [hins, Sched.insertSorted, List.orderedInsert, hlt]

theorem linkSorted (h : Refines s a) (l : ReadyList) {p : Pid} (hp : a.Unlinked p)
    (hlink : s.links p = none) (hlen : (a.list l).length ≤ maxProcesses) :
    Refines (Demoos.linkSorted s l p) (a.setList l (Sched.insertSorted a.est p (a.list l))) := by
  have hold := h.holds l
  have hapart := h.apart_setList l (Sched.insertSorted a.est p (a.list l)) hp
    fun q hq => by simpa [Sched.insertSorted] using hq
  have hne : ∀ l', ∀ q ∈ a.list l', q ≠ p := fun l' q hq => ne_of_mem_of_not_mem hq (hp l')
  unfold Demoos.linkSorted
  cases hx : a.list l with
  | nil =>
      rw [hx] at hold hapart
      have hh : (s.queue l).head = none := hold.head_eq
      have ht : (s.queue l).tail = none := hold.tail
      have hpush := hold.pushBack (a := p) (by simp)
      simp only [pushBackLinks, pushBackEnds, ht] at hpush
      rw [← hlink, Function.update_eq_self] at hpush
      simp only [hh]
      refine h.relink rfl (fun _ => rfl) ?_ ?_ (fun _ _ _ _ _ => rfl) hapart
      · simpa [Sched.insertSorted] using hpush
      · intro l' hl'; exact update_of_ne hl' _ _
  | cons c ys =>
      have hh : (s.queue l).head = some c := by rw [hold.head_eq, hx]; rfl
      simp only [hh, h.estBurst]
      by_cases hlt : a.est p < a.est c
      · have hins : Sched.insertSorted a.est p (c :: ys) = p :: c :: ys := by
          simp [Sched.insertSorted, List.orderedInsert, hlt]
        rw [hx] at hold hapart
        rw [if_pos hlt, hins]
        have hfront := hold.pushFront (hx ▸ hp l)
        refine h.relink rfl (fun q => KState.toProc_setNext s p q _) ?_ ?_ ?_ (hins ▸ hapart)
        · simpa [hh] using hfront
        · intro l' hl'; exact update_of_ne hl' _ _
        · intro l' _ q hq _; simp [hne l' q hq]
      · rw [if_neg hlt]
        obtain ⟨xs', ys', hl', hins⟩ := h.sortedPosition_eq p maxProcesses [] c
          (by rw [hx] at hlen; simp at hlen; omega) hx
        generalize sortedPosition s (a.est p) maxProcesses c = d at hl' hins ⊢
        have hins' : Sched.insertSorted a.est p (c :: ys) = xs' ++ d :: p :: ys' := by
          simp [Sched.insertSorted, List.orderedInsert, hlt] at hins ⊢
          exact hins.symm
        rw [hins']
        rw [hx, hins'] at hapart
        rw [hl'] at hold
        have hafter := hold.insertAfter (hl' ▸ hp l)
        have hd : ∀ q ∉ a.list l, q ≠ d := fun q hq e => hq (by simp [hl', e])
        have hn : (s.pcb d).nextReady = s.links d := rfl
        unfold insertAfterLinks insertAfterEnds at hafter
        have hproc : ∀ q n m, (((s.setNext p n).setNext d m).pcb q).toProc = (s.pcb q).toProc := by
          intro q n m
          rw [KState.toProc_setNext, KState.toProc_setNext]
        rw [hn]
        cases hnd : s.links d with
        | none =>
            rw [hnd] at hafter
            refine h.relink rfl (fun q => hproc q _ _) ?_ ?_ ?_ hapart
            · simpa using hafter
            · intro l' hl'; exact update_of_ne hl' _ _
            · intro l' _ q hq hql; simp [hne l' q hq, hd q hql]
        | some n =>
            rw [hnd] at hafter
            refine h.relink rfl (fun q => hproc q _ _) ?_ ?_ ?_ hapart
            · simpa using hafter
            · intro l' hl'; rfl
            · intro l' _ q hq hql; simp [hne l' q hq, hd q hql]

theorem enqueueSortedTo (h : Refines s a) (l : ReadyList) {p : Pid} (hinit : p ≠ initProcess)
    (hp : a.Unlinked p) (hlen : (a.list l).length ≤ maxProcesses) :
    Refines (Demoos.enqueueSortedTo s l p)
      ((a.modify p Proc.makeReady).setList l (Sched.insertSorted a.est p (a.list l))) := by
  have hest : (a.modify p Proc.makeReady).est = a.est := by
    funext q
    rw [Sched.est, Sched.proc_modify]
    split <;> rfl
  have hlink := (h.makeReady hp).linkSorted l hp (by simp) hlen
  rw [hest] at hlink
  simp only [Demoos.enqueueSortedTo, if_neg hinit]
  exact hlink

/-! ## Dequeue and removal -/

theorem dequeue_nil (h : Refines s a) {l : ReadyList} (hl : a.list l = []) :
    dequeueProcessFrom s l = (none, s) := by
  have hh : (s.queue l).head = none := (h.holds l).head_eq_none.mpr hl
  simp [dequeueProcessFrom, hh]

theorem dequeue_cons (h : Refines s a) {l : ReadyList} {p : Pid} {ps : List Pid}
    (hl : a.list l = p :: ps) :
    ∃ s', dequeueProcessFrom s l = (some p, s') ∧ Refines s' (a.setList l ps) := by
  have hold := h.holds l
  rw [hl] at hold
  have hh : (s.queue l).head = some p := by rw [hold.head_eq]; rfl
  have hpop := hold.popFront
  refine ⟨_, by simp only [dequeueProcessFrom, hh]; rfl, ?_⟩
  have hnext : (s.noteWrite.pcb p).nextReady = s.links p := rfl
  have hlinks : ∀ q ∉ a.list l, update s.links p none q = s.links q := fun q hq =>
    update_of_ne (fun e => hq (by simp [hl, e])) _ _
  have hapart := h.apart_sublist l ps fun q hq => by simp [hl, hq]
  rw [hnext]
  unfold popFrontEnds at hpop
  cases hn : s.links p with
  | none =>
      rw [hn] at hpop
      refine h.relink rfl (fun q => KState.toProc_setNext _ p q _) ?_ ?_ ?_ hapart
      · simpa using hpop
      · intro l' hne; simp [hne]
      · intro l' _ q _ hq; simpa using hlinks q hq
  | some n =>
      rw [hn] at hpop
      refine h.relink rfl (fun q => KState.toProc_setNext _ p q _) ?_ ?_ ?_ hapart
      · simpa using hpop
      · intro l' hne; simp [hne]
      · intro l' _ q _ hq; simpa using hlinks q hq

theorem removeProcessFrom (h : Refines s a) {l : ReadyList} {p : Pid} {xs ys : List Pid}
    (hl : a.list l = xs ++ p :: ys) :
    Refines (Demoos.removeProcessFrom s l xs.getLast? p) (a.setList l (xs ++ ys)) := by
  have hold := h.holds l
  rw [hl] at hold
  refine h.relink (toGlobals_removeProcessFrom s l p _) (toProc_removeProcessFrom s l p _)
    ?_ ?_ ?_ (h.apart_sublist l _ fun q hq => ?_)
  · rw [links_removeProcessFrom, queue_removeProcessFrom, update_self]
    exact hold.unlink
  · intro l' hne
    rw [queue_removeProcessFrom, update_of_ne hne]
  · intro l' _ q _ hq
    rw [links_removeProcessFrom]
    refine unlinkLinks_of_ne (fun e => hq (by simp [hl, e])) fun hv => hq ?_
    rw [hl]
    exact List.mem_append_left _ (List.mem_of_getLast? hv)
  · rw [hl]
    rcases List.mem_append.mp hq with hq | hq <;> simp [hq]

/-! ## Insertion policies -/

theorem algEnqueue (h : Refines s a) (alg : Algorithm) {p : Pid} (hinit : p ≠ initProcess)
    (hp : a.Unlinked p) (hlen : ∀ l, (a.list l).length ≤ maxProcesses) :
    Refines (alg.enqueue s p) (a.enqueue alg p) := by
  rw [Sched.enqueue, if_neg hinit]
  cases alg with
  | sjf => exact h.enqueueSortedTo .readyQueue hinit hp (hlen _)
  | mlq | mlfq =>
      change Refines (Demoos.enqueueProcessTo s (.mlQueues (s.queueLevel p)) p) _
      rw [h.queueLevel]
      exact h.enqueueProcessTo _ hinit hp
  | roundRobin | fcfs | lottery | priorityAging =>
      exact h.enqueueProcessTo .readyQueue hinit hp

theorem enqueueProcess (h : Refines s a) (alg : Algorithm) {p : Pid} (hp : a.Unlinked p)
    (hlen : ∀ l, (a.list l).length ≤ maxProcesses) :
    Refines (Demoos.enqueueProcess alg s p) (a.enqueue alg p) := by
  unfold Demoos.enqueueProcess
  split
  next hinit => rw [Sched.enqueue, if_pos hinit]; exact h
  next hinit => exact h.algEnqueue alg hinit hp hlen

/-! ## Guard, signals and switch -/

theorem preemptEnable (h : Refines s a) : Refines (Demoos.preemptEnable s) a.preemptEnable := by
  unfold Demoos.preemptEnable Sched.preemptEnable
  rw [h.currentProcess]
  exact h.modify _ _

theorem preemptDisable (h : Refines s a) : Refines (Demoos.preemptDisable s) a.preemptDisable := by
  unfold Demoos.preemptDisable Sched.preemptDisable
  rw [h.currentProcess]
  exact h.modify _ _

theorem setCounter (h : Refines s a) (p : Pid) (c : Int) :
    Refines (Demoos.setCounter s p c) (a.setCounter p c) := h.modify p _

/-- On a ready process the resume branch only clears its bit. -/
theorem handleProcessSignals (h : Refines s a) (alg : Algorithm) {p : Pid}
    (hready : (a.proc p).state = .ready) :
    Refines (Demoos.handleProcessSignals alg s p) (a.modify p Proc.handled) := by
  have hstate : (a.proc p).state ≠ .stopped := by rw [hready]; decide
  have twice : ∀ f g : Proc → Proc, g (f (a.proc p)) = (a.proc p).handled →
      Refines ((s.modify p f).modify p g) (a.modify p Proc.handled) := by
    intro f g hfg
    have := (h.modify p f).modify p g
    rw [Sched.modify_modify] at this
    rwa [Sched.modify_congr hfg] at this
  unfold Demoos.handleProcessSignals
  simp only [h.proc p, if_neg hstate]
  split
  next h₀ =>
    rw [Sched.modify_self]
    · exact h
    · rw [Proc.handled, if_pos h₀]
  next h₀ =>
    split
    next h₁ => exact twice _ _ (by rw [Proc.handled, if_neg h₀, if_pos h₁])
    next h₁ =>
      split
      next h₂ => exact twice _ _ (by rw [Proc.handled, if_neg h₀, if_neg h₁, if_pos h₂])
      next h₂ =>
        split
        next h₃ =>
            have := h.modify p (·.clearSignal signalResume)
            rwa [Sched.modify_congr (g := Proc.handled)] at this
            rw [Proc.handled, if_neg h₀, if_neg h₁, if_neg h₂, if_pos h₃]
        next h₃ =>
            rw [Sched.modify_self]
            · exact h
            · rw [Proc.handled, if_neg h₀, if_neg h₁, if_neg h₂, if_neg h₃]

theorem switchToProcess (h : Refines s a) (next : Pid) :
    Refines (Demoos.switchToProcess s next) (a.switchTo next) := by
  have hrun := h.modify next fun b => { b with state := .running }
  unfold Demoos.switchToProcess
  dsimp only
  split
  next hc =>
    obtain rfl : a.currentProcess = next := h.currentProcess.symm.trans hc
    have he : a.switchTo a.currentProcess =
        a.modify a.currentProcess fun b => { b with state := .running } := by
      refine Sched.ext rfl rfl rfl rfl rfl rfl rfl ?_ rfl
      funext p
      rw [Sched.proc_modify]
      dsimp only [Sched.switchTo]
      split
      next hp => rfl
      next hp => rw [if_neg fun hn => hp hn.1]
    rw [he]
    exact hrun
  next hc =>
    have hc' : a.currentProcess ≠ next := fun e => hc (h.currentProcess.trans e)
    have hcur : ((s.setState next .running).currentProcess) = a.currentProcess := h.currentProcess
    have hstate : ((s.setState next .running).pcb a.currentProcess).state = a.current.state := by
      refine congrArg Proc.state ((hrun.proc _).trans ?_)
      rw [Sched.proc_modify, if_neg hc']
      rfl
    rw [hcur, hstate]
    split
    next hr =>
      have hout := (hrun.modify a.currentProcess Proc.makeReady).mapGlobals
        ({ · with currentProcess := next })
      have he : a.switchTo next = { (a.modify next fun b => { b with state := .running }).modify
          a.currentProcess Proc.makeReady with currentProcess := next } := by
        refine Sched.ext rfl rfl rfl rfl rfl rfl rfl ?_ rfl
        funext p
        dsimp only [Sched.switchTo]
        rw [Sched.proc_modify, Sched.proc_modify]
        by_cases hp : p = a.currentProcess
        · subst hp
          rw [if_neg hc', if_pos ⟨rfl, hr⟩, if_pos rfl, if_neg hc']
          rfl
        · rw [if_neg hp]
          split
          next => rfl
          next => rw [if_neg fun hn => hp hn.1]
      rw [he]
      exact hout
    next hr =>
      have hout := hrun.mapGlobals ({ · with currentProcess := next })
      have he : a.switchTo next = { a.modify next fun b => { b with state := .running } with
          currentProcess := next } := by
        refine Sched.ext rfl rfl rfl rfl rfl rfl rfl ?_ rfl
        funext p
        dsimp only [Sched.switchTo]
        rw [Sched.proc_modify]
        split
        next => rfl
        next => rw [if_neg fun hn => hr (by rw [Sched.current, ← hn.1]; exact hn.2)]
      rw [he]
      exact hout

theorem requeueCurrent (h : Refines s a) (alg : Algorithm)
    (hcur : a.current.state = .running → a.Unlinked a.currentProcess)
    (hlen : ∀ l, (a.list l).length ≤ maxProcesses) :
    Refines (Demoos.requeueCurrent alg.enqueue s) (a.requeueCurrent alg) := by
  unfold Demoos.requeueCurrent Sched.requeueCurrent
  have hstate : s.current.state = a.current.state := by rw [← h.current]
  rw [h.currentProcess, hstate]
  split
  next hc => exact h.algEnqueue alg hc.1 (hcur hc.2) hlen
  next => exact h

end Refines

end Demoos
