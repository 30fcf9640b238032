import Mathlib.Data.List.Nodup
import Mathlib.Algebra.BigOperators.Group.List.Basic
import Mathlib.Algebra.Ring.Nat

/-!
# Draws

Each of some participants holds a number of tickets.  The tickets are numbered in the
order of the participants, and a draw of a number finds the participant who holds it.
Every number below the total is held by somebody, and as many of them by a participant
as he has tickets.
-/

namespace Draw

variable {α : Type*} {shares : α → Nat} {xs : List α} {a : α} {n : Nat}

/-- The holder of ticket `n`. -/
def holder (shares : α → Nat) : List α → Nat → Option α
  | [], _ => none
  | a :: xs, n => if n < shares a then some a else holder shares xs (n - shares a)

def total (shares : α → Nat) (xs : List α) : Nat := (xs.map shares).sum

theorem total_cons : total shares (a :: xs) = shares a + total shares xs := by
  rw [total, List.map_cons, List.sum_cons, total]

theorem holder_add : holder shares (a :: xs) (shares a + n) = holder shares xs n := by
  rw [holder, if_neg (Nat.not_lt.mpr (Nat.le_add_right _ _)), Nat.add_sub_cancel_left]

theorem holder_mem (h : holder shares xs n = some a) : a ∈ xs := by
  induction xs generalizing n with
  | nil => exact absurd h nofun
  | cons b xs ih =>
      rw [holder] at h
      split at h
      next => rw [Option.some.inj h]; exact List.mem_cons_self
      next => exact List.mem_cons_of_mem b (ih h)

/-- There is no gap in the numbers. -/
theorem holder_of_lt (h : n < total shares xs) : ∃ a, holder shares xs n = some a := by
  induction xs generalizing n with
  | nil => exact absurd h (Nat.not_lt_zero n)
  | cons b xs ih =>
      rw [holder]
      split
      next => exact ⟨b, rfl⟩
      next hb =>
        rw [total_cons] at h
        exact ih (by omega)

theorem total_le {m : Nat} (h : ∀ a ∈ xs, shares a ≤ m) : total shares xs ≤ xs.length * m := by
  induction xs with
  | nil => exact Nat.zero_le _
  | cons b xs ih =>
      have hb := h b List.mem_cons_self
      have hrest := ih fun a ha => h a (List.mem_cons_of_mem b ha)
      rw [total_cons, List.length_cons, Nat.succ_mul]
      omega

/-- The numbers below the total that are those of `a`. -/
def winning [DecidableEq α] (shares : α → Nat) (xs : List α) (a : α) : List Nat :=
  (List.range (total shares xs)).filter fun n => holder shares xs n = some a

/-- The numbers of a participant are as many as his tickets. -/
theorem length_winning [DecidableEq α] (shares : α → Nat) (hxs : xs.Nodup) (ha : a ∈ xs) :
    (winning shares xs a).length = shares a := by
  induction xs with
  | nil => exact absurd ha List.not_mem_nil
  | cons b xs ih =>
      obtain ⟨hb, hxs⟩ := List.nodup_cons.mp hxs
      have hfirst : ∀ n ∈ List.range (shares b), holder shares (b :: xs) n = some b := fun n hn => by
        rw [holder, if_pos (List.mem_range.mp hn)]
      have hsplit : (winning shares (b :: xs) a).length =
          ((List.range (shares b)).filter fun n => holder shares (b :: xs) n = some a).length +
            (winning shares xs a).length := by
        rw [winning, total_cons, List.range_add, List.filter_append, List.length_append,
          List.filter_map, List.length_map, winning]
        have hshift : ((fun n => decide (holder shares (b :: xs) n = some a)) ∘ (shares b + ·)) =
            fun n => decide (holder shares xs n = some a) := funext fun n => by
          rw [Function.comp_apply, holder_add]
        rw [hshift]
      rw [hsplit]
      rcases List.mem_cons.mp ha with rfl | ha
      · have hnone : winning shares xs a = [] := List.filter_eq_nil_iff.mpr fun n _ hn =>
          hb (holder_mem (of_decide_eq_true hn))
        rw [hnone, List.filter_eq_self.mpr fun n hn => decide_eq_true (hfirst n hn),
          List.length_range, List.length_nil, Nat.add_zero]
      · have hne : b ≠ a := fun he => hb (he ▸ ha)
        have hnone : (List.range (shares b)).filter
            (fun n => holder shares (b :: xs) n = some a) = [] :=
          List.filter_eq_nil_iff.mpr fun n hn hwin =>
            hne (Option.some.inj ((hfirst n hn).symm.trans (of_decide_eq_true hwin)))
        rw [hnone, List.length_nil, Nat.zero_add]
        exact ih hxs ha

end Draw
