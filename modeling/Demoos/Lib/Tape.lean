import Mathlib.Data.List.GetD
import Mathlib.Data.List.Nodup
import Mathlib.Logic.Function.Basic
import Mathlib.Tactic.TypeStar

/-!
# Tapes

A tape has a cell for each natural number.  `splice` writes a list of cells from a place on,
`window` reads a number of cells from a place on, and `pokes` writes single cells one after the
other.
-/

namespace Tape

open Function (update update_self update_of_ne)

variable {α : Type*}

/-- The tape with the cells of the list from `o` on. -/
def splice (t : Nat → α) (o : Nat) (xs : List α) : Nat → α := fun i =>
  if o ≤ i then xs.getD (i - o) (t i) else t i

/-- The `n` cells from `o` on. -/
def window (t : Nat → α) (o n : Nat) : List α := (List.range n).map fun i => t (o + i)

variable {t t' : Nat → α} {o i m n : Nat} {xs ys : List α}

@[simp] theorem splice_nil : splice t o [] = t := by
  funext i
  simp [splice]

theorem splice_of_lt (h : i < o) : splice t o xs i = t i := if_neg (by omega)

theorem splice_of_le (h : o + xs.length ≤ i) : splice t o xs i = t i := by
  rw [splice, List.getD_eq_default _ _ (by omega), ite_self]

theorem splice_add (h : i < xs.length) : splice t o xs (o + i) = xs[i] := by
  rw [splice, if_pos (Nat.le_add_right o i), Nat.add_sub_cancel_left, List.getD_eq_getElem _ _ h]

/-- Outside of the list the tape counts, inside it does not. -/
theorem splice_congr (h : i < o ∨ o + xs.length ≤ i → t i = t' i) :
    splice t o xs i = splice t' o xs i := by
  by_cases hin : i < o ∨ o + xs.length ≤ i
  · rw [splice, splice, h hin]
  · obtain ⟨k, rfl⟩ := Nat.exists_eq_add_of_le (by omega : o ≤ i)
    rw [splice_add (by omega), splice_add (by omega)]

theorem splice_singleton {a : α} : splice t o [a] = update t o a := by
  funext i
  rcases Nat.lt_trichotomy i o with hlt | rfl | hgt
  · rw [splice_of_lt hlt, update_of_ne (Nat.ne_of_lt hlt)]
  · rw [update_self, splice, if_pos (Nat.le_refl i), Nat.sub_self]
    rfl
  · rw [splice_of_le hgt, update_of_ne (Nat.ne_of_gt hgt)]

theorem splice_append : splice t o (xs ++ ys) = splice (splice t o xs) (o + xs.length) ys := by
  funext i
  rcases Nat.lt_or_ge i o with hlt | hge
  · rw [splice_of_lt hlt, splice_of_lt (by omega), splice_of_lt hlt]
  · obtain ⟨k, rfl⟩ := Nat.exists_eq_add_of_le hge
    rcases Nat.lt_or_ge k xs.length with hk | hk
    · rw [splice_add (by simp only [List.length_append]; omega), splice_of_lt (by omega),
        splice_add hk, List.getElem_append_left hk]
    · obtain ⟨j, rfl⟩ := Nat.exists_eq_add_of_le hk
      rcases Nat.lt_or_ge j ys.length with hj | hj
      · rw [splice_add (by simp only [List.length_append]; omega), ← Nat.add_assoc,
          splice_add hj, List.getElem_append_right (by omega)]
        simp
      · rw [splice_of_le (by simp only [List.length_append]; omega), splice_of_le (by omega),
          splice_of_le (by omega)]

@[simp] theorem length_window : (window t o n).length = n := by simp [window]

@[simp] theorem window_zero : window t o 0 = [] := rfl

@[simp] theorem getElem_window (h : i < (window t o n).length) :
    (window t o n)[i] = t (o + i) := by simp [window]

theorem window_add : window t o (m + n) = window t o m ++ window t (o + m) n := by
  simp only [window, List.range_add, List.map_append, List.map_map, Function.comp_def,
    Nat.add_assoc]

theorem window_congr (h : ∀ i < n, t (o + i) = t' (o + i)) : window t o n = window t' o n :=
  List.map_congr_left fun i hi => h i (List.mem_range.mp hi)

/-- What is written is read back. -/
theorem window_splice : window (splice t o xs) o xs.length = xs := by
  refine List.ext_getElem (by simp) fun i hi _ => ?_
  rw [getElem_window, splice_add]

/-- Write cells one after the other. -/
def pokes (t : Nat → α) (ps : List (Nat × α)) : Nat → α :=
  ps.foldl (fun t p => update t p.1 p.2) t

theorem pokes_of_notMem {ps : List (Nat × α)} (h : i ∉ ps.map Prod.fst) : pokes t ps i = t i := by
  induction ps generalizing t with
  | nil => rfl
  | cons p ps ih =>
      rw [List.map_cons, List.mem_cons, not_or] at h
      exact (ih h.2).trans (update_of_ne h.1 _ _)

/-- Where a cell is written, what was there before does not count. -/
theorem pokes_congr {ps : List (Nat × α)} (h : i ∈ ps.map Prod.fst ∨ t i = t' i) :
    pokes t ps i = pokes t' ps i := by
  induction ps generalizing t t' with
  | nil => exact h.resolve_left List.not_mem_nil
  | cons p ps ih =>
      rw [List.map_cons, List.mem_cons] at h
      show pokes (update t p.1 p.2) ps i = pokes (update t' p.1 p.2) ps i
      refine ih ?_
      by_cases hp : i = p.1
      · right
        rw [hp, update_self, update_self]
      · rw [update_of_ne hp, update_of_ne hp]
        exact h.imp_left fun h => h.resolve_left hp

/-- Where no cell is written twice, each of them is read back. -/
theorem pokes_of_mem {ps : List (Nat × α)} {a : α} (hnodup : (ps.map Prod.fst).Nodup)
    (h : (i, a) ∈ ps) : pokes t ps i = a := by
  induction ps generalizing t with
  | nil => cases h
  | cons p ps ih =>
      rw [List.map_cons, List.nodup_cons] at hnodup
      rcases List.mem_cons.mp h with rfl | hmem
      · exact (pokes_of_notMem hnodup.1).trans (update_self _ _ _)
      · exact ih hnodup.2 hmem

end Tape
