import Mathlib.Data.List.Nodup
import Mathlib.Logic.Function.Basic

/-!
# Intrusive queues

A queue kept as a singly linked list through the nodes themselves.  The links
are a map `next : α → Option α`, shared by every queue over the same nodes, and
a queue is only a pair of ends.  `Holds next q xs` says that the queue `q`
represents the list `xs`: following the links from the head meets the nodes of
`xs` in order and then stops, and the tail is the last of them.

The represented list is determined by the links (`Holds.unique`) and never
repeats a node (`Holds.nodup`), so a queue that represents a list at all has no
cycle.  Each operation is a change of the links and of the ends, with one rule
about the represented list and one frame rule: a queue that shares no node with
the ones the operation writes keeps its list (`Holds.frame`).
-/

namespace LinkedQueue

open Function (update)

variable {α : Type*}

/-! ## Segments -/

/-- Following the links from `o` through the nodes `xs` arrives at `o'`. -/
def Seg (next : α → Option α) : Option α → List α → Option α → Prop
  | o, [], o' => o = o'
  | o, a :: xs, o' => o = some a ∧ Seg next (next a) xs o'

@[simp] theorem seg_nil {next : α → Option α} {o o' : Option α} :
    Seg next o [] o' ↔ o = o' := Iff.rfl

@[simp] theorem seg_cons {next : α → Option α} {o o' : Option α} {a : α} {xs : List α} :
    Seg next o (a :: xs) o' ↔ o = some a ∧ Seg next (next a) xs o' := Iff.rfl

theorem seg_append {next : α → Option α} {o o' : Option α} {xs ys : List α} :
    Seg next o (xs ++ ys) o' ↔ ∃ m, Seg next o xs m ∧ Seg next m ys o' := by
  induction xs generalizing o with
  | nil => simp
  | cons a xs ih => simp [ih, and_assoc]

/-- A segment depends only on the links of its own nodes. -/
theorem Seg.congr {next next' : α → Option α} {o o' : Option α} {xs : List α}
    (h : Seg next o xs o') (heq : ∀ a ∈ xs, next' a = next a) : Seg next' o xs o' := by
  induction xs generalizing o with
  | nil => exact h
  | cons a xs ih =>
      refine ⟨h.1, ?_⟩
      rw [heq a List.mem_cons_self]
      exact ih h.2 fun b hb => heq b (List.mem_cons_of_mem a hb)

theorem notMem_of_nodup_concat {xs : List α} {a : α} (h : (xs ++ [a]).Nodup) : a ∉ xs := by
  intro ha
  rw [List.nodup_append] at h
  exact h.2.2 a ha a (by simp) rfl

theorem Seg.update_of_notMem [DecidableEq α] {next : α → Option α} {o o' v : Option α}
    {xs : List α} {a : α} (h : Seg next o xs o') (ha : a ∉ xs) :
    Seg (update next a v) o xs o' :=
  h.congr fun _ hb => Function.update_of_ne (ne_of_mem_of_not_mem hb ha) _ _

/-- The end of a segment moves with the link of its last node. -/
theorem Seg.redirect [DecidableEq α] {next : α → Option α} {o o' v : Option α}
    {xs : List α} {t : α} (h : Seg next o (xs ++ [t]) o') (ht : t ∉ xs) :
    Seg (update next t v) o (xs ++ [t]) v := by
  obtain ⟨m, hxs, hm, _⟩ := seg_append.mp h
  exact seg_append.mpr ⟨m, hxs.update_of_notMem ht, hm, by simp⟩

/-- Two segments from one place to the end of the links are the same. -/
theorem Seg.unique {next : α → Option α} {o : Option α} {xs ys : List α}
    (hx : Seg next o xs none) (hy : Seg next o ys none) : xs = ys := by
  induction xs generalizing o ys with
  | nil =>
      cases ys with
      | nil => rfl
      | cons b ys => exact absurd (hx.symm.trans hy.1) (by simp)
  | cons a xs ih =>
      cases ys with
      | nil => exact absurd (hx.1.symm.trans hy) (by simp)
      | cons b ys =>
          obtain rfl : a = b := Option.some.inj (hx.1.symm.trans hy.1)
          rw [ih hx.2 hy.2]

/-- Links that stop never met a node twice: the rest of the list after both
occurrences would be one list of two lengths. -/
theorem Seg.nodup {next : α → Option α} {o : Option α} {xs : List α}
    (h : Seg next o xs none) : xs.Nodup := by
  induction xs generalizing o with
  | nil => exact List.nodup_nil
  | cons a xs ih =>
      refine List.nodup_cons.mpr ⟨fun ha => ?_, ih h.2⟩
      obtain ⟨ys, zs, rfl⟩ := List.append_of_mem ha
      obtain ⟨m, _, hm⟩ := seg_append.mp h.2
      have hlen : ys ++ a :: zs = zs := h.2.unique hm.2
      have := congrArg List.length hlen
      simp at this
      omega

/-! ## Queues -/

/-- The two ends of a queue. -/
structure Ends (α : Type*) where
  head : Option α
  tail : Option α
deriving DecidableEq, Repr

/-- The queue with no node. -/
def Ends.empty : Ends α := ⟨none, none⟩

/-- The queue `q` represents the list `xs`. -/
structure Holds (next : α → Option α) (q : Ends α) (xs : List α) : Prop where
  /-- The links from the head meet `xs` and stop. -/
  seg : Seg next q.head xs none
  /-- The tail is the last node. -/
  tail : q.tail = xs.getLast?

namespace Holds

variable {next next' : α → Option α} {q : Ends α} {xs ys : List α} {a : α}

theorem empty : Holds next (Ends.empty : Ends α) [] := ⟨rfl, rfl⟩

theorem nodup (h : Holds next q xs) : xs.Nodup := h.seg.nodup

theorem unique (h : Holds next q xs) (h' : Holds next q ys) : xs = ys := h.seg.unique h'.seg

theorem head_eq (h : Holds next q xs) : q.head = xs.head? := by
  cases xs with
  | nil => exact h.seg
  | cons a xs => exact h.seg.1

theorem head_eq_none (h : Holds next q xs) : q.head = none ↔ xs = [] := by
  rw [h.head_eq, List.head?_eq_none_iff]

theorem tail_eq_none (h : Holds next q xs) : q.tail = none ↔ xs = [] := by
  rw [h.tail, List.getLast?_eq_none_iff]

/-- The list determines the ends. -/
theorem ends_eq {q' : Ends α} (h : Holds next q xs) (h' : Holds next' q' xs) : q = q' := by
  have hhead : q.head = q'.head := h.head_eq.trans h'.head_eq.symm
  have htail : q.tail = q'.tail := h.tail.trans h'.tail.symm
  cases q with
  | mk head tail =>
      cases q' with
      | mk head' tail' =>
          obtain rfl : head = head' := hhead
          obtain rfl : tail = tail' := htail
          rfl

theorem eq_empty (h : Holds next q ([] : List α)) : q = Ends.empty := by
  have hempty : Holds next Ends.empty ([] : List α) := ⟨rfl, rfl⟩
  exact h.ends_eq hempty

/-- A queue keeps its list when the links of its nodes are left alone. -/
theorem frame (h : Holds next q xs) (heq : ∀ a ∈ xs, next' a = next a) : Holds next' q xs :=
  ⟨h.seg.congr heq, h.tail⟩

/-- The link of a node leads to the node after it. -/
theorem next_eq (h : Holds next q (xs ++ a :: ys)) : next a = ys.head? := by
  obtain ⟨m, _, _, hys⟩ := seg_append.mp h.seg
  cases ys with
  | nil => exact hys
  | cons b ys => exact hys.1

end Holds

/-! ## Walking a queue -/

/-- The nodes met in at most `fuel` steps from `o`. -/
def walk (next : α → Option α) : Nat → Option α → List α
  | 0, _ => []
  | _ + 1, none => []
  | n + 1, some a => a :: walk next n (next a)

theorem length_walk_le (next : α → Option α) (fuel : Nat) (o : Option α) :
    (walk next fuel o).length ≤ fuel := by
  induction fuel generalizing o with
  | zero => exact Nat.le_refl 0
  | succ n ih =>
      cases o with
      | none => exact Nat.zero_le _
      | some a => exact Nat.succ_le_succ (ih (next a))

theorem Seg.walk_eq {next : α → Option α} {o : Option α} {xs : List α} {fuel : Nat}
    (h : Seg next o xs none) (hf : xs.length ≤ fuel) : walk next fuel o = xs := by
  induction xs generalizing o fuel with
  | nil =>
      obtain rfl : o = none := h
      cases fuel <;> rfl
  | cons a xs ih =>
      cases fuel with
      | zero => simp at hf
      | succ n =>
          rw [h.1, walk, ih h.2 (by simpa using hf)]

/-- A walk of enough steps from the head reads the represented list back. -/
theorem Holds.walk_eq {next : α → Option α} {q : Ends α} {xs : List α} {fuel : Nat}
    (h : Holds next q xs) (hf : xs.length ≤ fuel) : walk next fuel q.head = xs :=
  h.seg.walk_eq hf

/-! ## Operations -/

section Operations

variable [DecidableEq α]

/-- The links after `a` is added behind the tail. -/
def pushBackLinks (next : α → Option α) (q : Ends α) (a : α) : α → Option α :=
  match q.tail with
  | none => update next a none
  | some t => update (update next a none) t (some a)

/-- The ends after `a` is added behind the tail. -/
def pushBackEnds (q : Ends α) (a : α) : Ends α :=
  match q.tail with
  | none => ⟨some a, some a⟩
  | some _ => ⟨q.head, some a⟩

/-- The ends after the head `a` is taken off. -/
def popFrontEnds (next : α → Option α) (q : Ends α) (a : α) : Ends α :=
  match next a with
  | none => ⟨none, none⟩
  | some b => ⟨some b, q.tail⟩

/-- The links after `a` is unlinked from behind its predecessor. -/
def unlinkLinks (next : α → Option α) (previous : Option α) (a : α) : α → Option α :=
  match previous with
  | none => update next a none
  | some v => update (update next v (next a)) a none

/-- The ends after `a` is unlinked from behind its predecessor. -/
def unlinkEnds (next : α → Option α) (q : Ends α) (previous : Option α) (a : α) : Ends α :=
  ⟨match previous with
    | none => next a
    | some _ => q.head,
   if q.tail = some a then previous else q.tail⟩

/-- The links after `a` is inserted behind `c`. -/
def insertAfterLinks (next : α → Option α) (c a : α) : α → Option α :=
  update (update next a (next c)) c (some a)

/-- The ends after `a` is inserted behind `c`. -/
def insertAfterEnds (next : α → Option α) (q : Ends α) (c a : α) : Ends α :=
  match next c with
  | none => ⟨q.head, some a⟩
  | some _ => q

/-- Adding `a` writes the links of `a` and of the tail only. -/
theorem pushBackLinks_of_ne {next : α → Option α} {q : Ends α} {a b : α} (ha : b ≠ a)
    (ht : q.tail ≠ some b) : pushBackLinks next q a b = next b := by
  unfold pushBackLinks
  cases hq : q.tail with
  | none => exact Function.update_of_ne ha _ _
  | some t =>
      have hbt : b ≠ t := fun e => ht (e ▸ hq)
      exact (Function.update_of_ne hbt _ _).trans (Function.update_of_ne ha _ _)

/-- Unlinking `a` writes the links of `a` and of its predecessor only. -/
theorem unlinkLinks_of_ne {next : α → Option α} {previous : Option α} {a b : α} (ha : b ≠ a)
    (hv : previous ≠ some b) : unlinkLinks next previous a b = next b := by
  cases previous with
  | none => exact Function.update_of_ne ha _ _
  | some v =>
      have hbv : b ≠ v := fun e => hv (e ▸ rfl)
      exact (Function.update_of_ne ha _ _).trans (Function.update_of_ne hbv _ _)

namespace Holds

variable {next : α → Option α} {q : Ends α} {xs ys : List α} {a c : α}

omit [DecidableEq α] in
/-- The tail is a node of the queue. -/
theorem tail_mem {t : α} (h : Holds next q xs) (ht : q.tail = some t) : t ∈ xs :=
  List.mem_of_getLast? (h.tail.symm.trans ht)

theorem pushBack (h : Holds next q xs) (ha : a ∉ xs) :
    Holds (pushBackLinks next q a) (pushBackEnds q a) (xs ++ [a]) := by
  rcases List.eq_nil_or_concat' xs with rfl | ⟨ys, t, rfl⟩
  · have ht : q.tail = none := h.tail
    constructor
    · simp [pushBackLinks, pushBackEnds, ht]
    · simp [pushBackEnds, ht]
  · have ht : q.tail = some t := by simpa using h.tail
    have hta : a ≠ t := fun e => ha (by simp [e])
    have hty : t ∉ ys := notMem_of_nodup_concat h.nodup
    constructor
    · have hseg : Seg (update next a none) q.head (ys ++ [t]) none :=
        h.seg.update_of_notMem ha
      rw [seg_append]
      refine ⟨some a, ?_, ?_⟩
      · simpa [pushBackLinks, pushBackEnds, ht] using hseg.redirect (v := some a) hty
      · simp [pushBackLinks, ht, Function.update_of_ne hta]
    · simp [pushBackEnds, ht]

theorem popFront (h : Holds next q (a :: xs)) :
    Holds (update next a none) (popFrontEnds next q a) xs := by
  have ha : a ∉ xs := (List.nodup_cons.mp h.nodup).1
  cases xs with
  | nil =>
      have hn : next a = none := h.seg.2
      constructor <;> simp [popFrontEnds, hn]
  | cons b xs =>
      have hn : next a = some b := h.seg.2.1
      have ht := h.tail
      constructor
      · have := h.seg.2.update_of_notMem (v := none) ha
        simpa [popFrontEnds, hn] using this
      · rw [List.getLast?_cons_cons] at ht
        simpa [popFrontEnds, hn] using ht

theorem unlink (h : Holds next q (xs ++ a :: ys)) :
    Holds (unlinkLinks next xs.getLast? a) (unlinkEnds next q xs.getLast? a) (xs ++ ys) := by
  have hnd := h.nodup
  rw [List.nodup_append] at hnd
  obtain ⟨hxs, hay, hdis⟩ := hnd
  have hya : a ∉ ys := (List.nodup_cons.mp hay).1
  have hxa : a ∉ xs := fun hm => hdis a hm a List.mem_cons_self rfl
  obtain ⟨m, hx, rfl, hy⟩ := seg_append.mp h.seg
  -- the tail moves back to the predecessor exactly when nothing follows `a`
  have htail : (if q.tail = some a then xs.getLast? else q.tail) = (xs ++ ys).getLast? := by
    cases ys with
    | nil =>
        have : q.tail = some a := by simpa using h.tail
        simp [this]
    | cons b ys =>
        have ht : q.tail = (xs ++ b :: ys).getLast? := by
          rw [h.tail, List.getLast?_append_of_ne_nil _ (by simp), List.getLast?_cons_cons,
            List.getLast?_append_of_ne_nil _ (by simp)]
        have hne : q.tail ≠ some a := fun e => by
          rcases List.mem_append.mp (List.mem_of_getLast? (ht.symm.trans e)) with hm | hm
          · exact hxa hm
          · exact hya hm
        rw [if_neg hne, ht]
  rcases List.eq_nil_or_concat' xs with rfl | ⟨zs, v, rfl⟩
  · exact ⟨by simpa [unlinkLinks, unlinkEnds] using hy.update_of_notMem hya, htail⟩
  · have hva : v ≠ a := fun e => hxa (by simp [e])
    have hvz : v ∉ zs := notMem_of_nodup_concat hxs
    have hvy : v ∉ ys := fun hm =>
      hdis v (by simp) v (List.mem_cons_of_mem a hm) rfl
    refine ⟨?_, htail⟩
    rw [seg_append]
    refine ⟨next a, ?_, ?_⟩
    · have := (hx.redirect (v := next a) hvz).update_of_notMem (v := none) hxa
      simpa [unlinkLinks, unlinkEnds] using this
    · have := (hy.update_of_notMem (v := next a) hvy).update_of_notMem (v := none) hya
      simpa [unlinkLinks] using this

theorem pushFront (h : Holds next q (c :: xs)) (ha : a ∉ c :: xs) :
    Holds (update next a q.head) ⟨some a, q.tail⟩ (a :: c :: xs) := by
  refine ⟨⟨rfl, ?_⟩, ?_⟩
  · rw [Function.update_self]
    exact h.seg.update_of_notMem ha
  · rw [List.getLast?_cons_cons]
    exact h.tail

theorem insertAfter (h : Holds next q (xs ++ c :: ys)) (ha : a ∉ xs ++ c :: ys) :
    Holds (insertAfterLinks next c a) (insertAfterEnds next q c a) (xs ++ c :: a :: ys) := by
  have hnd := h.nodup
  rw [List.nodup_append] at hnd
  obtain ⟨_, hcy, hdis⟩ := hnd
  have hyc : c ∉ ys := (List.nodup_cons.mp hcy).1
  have hxc : c ∉ xs := fun hm => hdis c hm c List.mem_cons_self rfl
  have hxa : a ∉ xs := fun hm => ha (List.mem_append_left _ hm)
  have hya : a ∉ ys := fun hm => ha (List.mem_append_right _ (List.mem_cons_of_mem c hm))
  have hca : a ≠ c := fun e => ha (by simp [e])
  obtain ⟨m, hx, rfl, hy⟩ := seg_append.mp h.seg
  have hhead : (insertAfterEnds next q c a).head = q.head := by
    unfold insertAfterEnds
    split <;> rfl
  constructor
  · rw [hhead, seg_append]
    refine ⟨some c, (hx.update_of_notMem hxa).update_of_notMem hxc, rfl, ?_⟩
    refine ⟨by simp [insertAfterLinks], ?_⟩
    have := (hy.update_of_notMem (v := next c) hya).update_of_notMem (v := some a) hyc
    simpa [insertAfterLinks, Function.update_of_ne hca] using this
  · cases ys with
    | nil =>
        have hn : next c = none := hy
        simp [insertAfterEnds, hn, List.getLast?_append]
    | cons b ys =>
        have hn : next c = some b := hy.1
        have ht := h.tail
        simp only [List.getLast?_append, List.getLast?_cons_cons] at ht ⊢
        simpa [insertAfterEnds, hn] using ht

end Holds

end Operations

end LinkedQueue
