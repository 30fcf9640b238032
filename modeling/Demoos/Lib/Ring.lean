import Mathlib.Logic.Function.Basic

/-!
# Ring buffers

A ring with positions `0..n` that keeps one position empty, so it has room for
`n` values.  Values go in at `head` and come out at `tail`, and either index
goes back to `0` behind `n`.

`Spans n head tail k` says that the indices are in range and `k` positions apart,
and `Holds n head tail slot xs` that the positions from `tail` on hold the
values `xs`.  The indices meet when the ring is empty and are one step from
meeting when it is full.
-/

namespace Ring

open Function (update update_self update_of_ne)

variable {α : Type*} {n head tail k : Nat}

/-! ## Indices -/

/-- The index behind `i`. -/
def advance (n i : Nat) : Nat := if n < i + 1 then 0 else i + 1

/-- The index `k` positions behind `tail`. -/
def index (n tail k : Nat) : Nat := if tail + k ≤ n then tail + k else tail + k - (n + 1)

structure Spans (n head tail k : Nat) : Prop where
  tail_le : tail ≤ n
  length_le : k ≤ n
  head_eq : head = index n tail k

theorem advance_le (i : Nat) : advance n i ≤ n := by
  unfold advance
  split <;> omega

theorem advance_index (ht : tail ≤ n) (hk : k ≤ n) :
    advance n (index n tail k) = index n tail (k + 1) := by
  unfold advance index
  split <;> split <;> split <;> omega

theorem index_advance (ht : tail ≤ n) (hk : k < n) :
    index n (advance n tail) k = index n tail (k + 1) := by
  unfold advance index
  split <;> split <;> split <;> omega

theorem index_zero (ht : tail ≤ n) : index n tail 0 = tail := if_pos ht

theorem index_inj {j : Nat} (hj : j ≤ n) (hk : k ≤ n)
    (h : index n tail j = index n tail k) : j = k := by
  unfold index at h
  split at h <;> split at h <;> omega

namespace Spans

theorem zero {i : Nat} (hi : i ≤ n) : Spans n i i 0 := ⟨hi, Nat.zero_le n, (index_zero hi).symm⟩

theorem head_le (h : Spans n head tail k) : head ≤ n := by
  have ht := h.tail_le
  have hk := h.length_le
  rw [h.head_eq]
  unfold index
  split <;> omega

theorem empty_iff (h : Spans n head tail k) : head = tail ↔ k = 0 := by
  have hzero := index_zero h.tail_le
  constructor
  · intro he
    have hindex : index n tail k = index n tail 0 := by rw [← h.head_eq, he, hzero]
    exact index_inj h.length_le (Nat.zero_le n) hindex
  · rintro rfl
    rw [h.head_eq, hzero]

theorem full_iff (h : Spans n head tail k) : advance n head = tail ↔ k = n := by
  have ht := h.tail_le
  have hk := h.length_le
  rw [h.head_eq, advance_index ht hk]
  unfold index
  split <;> omega

theorem push (h : Spans n head tail k) (hk : k < n) : Spans n (advance n head) tail (k + 1) where
  tail_le := h.tail_le
  length_le := hk
  head_eq := by rw [h.head_eq, advance_index h.tail_le h.length_le]

theorem pop (h : Spans n head tail (k + 1)) : Spans n head (advance n tail) k where
  tail_le := advance_le tail
  length_le := Nat.le_of_succ_le h.length_le
  head_eq := by rw [h.head_eq, index_advance h.tail_le h.length_le]

end Spans

/-! ## Contents -/

/-- The positions from `tail` up to `head` hold `xs`. -/
structure Holds (n head tail : Nat) (slot : Nat → α) (xs : List α) : Prop where
  spans : Spans n head tail xs.length
  slots : ∀ k (hk : k < xs.length), slot (index n tail k) = xs[k]

namespace Holds

variable {slot : Nat → α} {xs : List α} {x : α}

theorem nil {i : Nat} (hi : i ≤ n) (slot : Nat → α) : Holds n i i slot [] where
  spans := .zero hi
  slots k hk := absurd hk (Nat.not_lt_zero k)

/-- A value goes in behind the others. -/
theorem push (h : Holds n head tail slot xs) (hx : xs.length < n) (x : α) :
    Holds n (advance n head) tail (update slot head x) (xs ++ [x]) where
  spans := by
    rw [List.length_append]
    exact h.spans.push hx
  slots k hk := by
    rw [List.length_append, List.length_singleton] at hk
    rcases Nat.lt_succ_iff_lt_or_eq.mp hk with hlt | rfl
    · have hne : index n tail k ≠ head := by
        rw [h.spans.head_eq]
        intro he
        have := index_inj (by omega) h.spans.length_le he
        omega
      rw [update_of_ne hne, List.getElem_append_left hlt]
      exact h.slots k hlt
    · rw [← h.spans.head_eq, update_self]
      simp

/-- The first value comes out. -/
theorem pop (h : Holds n head tail slot (x :: xs)) :
    slot tail = x ∧ Holds n head (advance n tail) slot xs := by
  have hspans : Spans n head tail (xs.length + 1) := h.spans
  refine ⟨?_, hspans.pop, fun k hk => ?_⟩
  · have hfirst := h.slots 0 (Nat.succ_pos _)
    rwa [index_zero hspans.tail_le] at hfirst
  · have hlen := hspans.length_le
    rw [index_advance hspans.tail_le (by omega)]
    exact h.slots (k + 1) (Nat.succ_lt_succ hk)

end Holds

end Ring
