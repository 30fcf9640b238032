import Mathlib.Logic.Function.Basic

/-!
# C strings

A memory of characters from an address on, with a string at its start that a zero ends.
The loop that copies a string writes its characters and its end, and nothing behind.
-/

namespace CString

open Function (update update_self update_of_ne)

variable {α : Type*} [Zero α] {m dest src : Nat → α} {xs ys : List α}

/-- The string `xs` stands at the start of the memory. -/
structure Stands (m : Nat → α) (xs : List α) : Prop where
  text : ∀ i (hi : i < xs.length), m i = xs[i]
  ended : m xs.length = 0
  proper : ∀ x ∈ xs, x ≠ 0

theorem Stands.ne_zero (h : Stands m xs) {i : Nat} (hi : i < xs.length) : m i ≠ 0 := by
  rw [h.text i hi]
  exact h.proper _ (List.getElem_mem hi)

/-- A memory starts with one string. -/
theorem Stands.unique (h : Stands m xs) (h' : Stands m ys) : xs = ys := by
  have hlen : xs.length = ys.length := by
    rcases Nat.lt_trichotomy xs.length ys.length with hlt | he | hgt
    · exact absurd h.ended (h'.ne_zero hlt)
    · exact he
    · exact absurd h'.ended (h.ne_zero hgt)
  exact List.ext_getElem hlen fun i hi hi' => (h.text i hi).symm.trans (h'.text i hi')

theorem Stands.congr (h : Stands m xs) {m' : Nat → α} (heq : ∀ i ≤ xs.length, m' i = m i) :
    Stands m' xs where
  text i hi := (heq i (Nat.le_of_lt hi)).trans (h.text i hi)
  ended := (heq _ (Nat.le_refl _)).trans h.ended
  proper := h.proper

/-- The character behind a part of the string. -/
theorem Stands.at_append {x : α} (h : Stands m (xs ++ x :: ys)) : m xs.length = x := by
  rw [h.text xs.length (by simp)]
  simp

/-- What stands behind a part of the string. -/
theorem Stands.drop (h : Stands m (xs ++ ys)) : Stands (fun i => m (xs.length + i)) ys where
  text i hi := by
    rw [h.text (xs.length + i) (by simpa using hi)]
    simp
  ended := by
    rw [← List.length_append]
    exact h.ended
  proper x hx := h.proper x (List.mem_append_right xs hx)

/-- One character of the string is replaced. -/
theorem Stands.replace {x y : α} (h : Stands m (xs ++ x :: ys)) (hy : y ≠ 0) :
    Stands (update m xs.length y) (xs ++ y :: ys) where
  text i hi := by
    by_cases hix : i = xs.length
    · subst hix
      simp
    · have hi' : i < (xs ++ x :: ys).length := by simpa using hi
      rw [update_of_ne hix, h.text i hi', List.getElem_append, List.getElem_append]
      split
      next => rfl
      next hge =>
        obtain ⟨k, hk⟩ : ∃ k, i - xs.length = k + 1 := ⟨i - xs.length - 1, by omega⟩
        simp only [hk, List.getElem_cons_succ]
  ended := by
    have hlen : (xs ++ y :: ys).length = (xs ++ x :: ys).length := by simp
    rw [hlen, update_of_ne (by simp), h.ended]
  proper z hz := by
    rcases List.mem_append.mp hz with hz | hz
    · exact h.proper z (List.mem_append_left _ hz)
    · rcases List.mem_cons.mp hz with rfl | hz
      · exact hy
      · exact h.proper z (List.mem_append_right _ (List.mem_cons_of_mem x hz))

/-- A zero cuts the string off. -/
theorem Stands.truncate (h : Stands m (xs ++ ys)) : Stands (update m xs.length 0) xs where
  text i hi := by
    rw [update_of_ne (by omega), h.text i (by rw [List.length_append]; omega),
      List.getElem_append_left hi]
  ended := update_self ..
  proper x hx := h.proper x (List.mem_append_left ys hx)

/-- `dest` with the string of length `n` of `src` in front. -/
def overwrite (dest src : Nat → α) (n : Nat) : Nat → α := fun i => if i ≤ n then src i else dest i

theorem Stands.overwrite (h : Stands src xs) (dest : Nat → α) :
    Stands (overwrite dest src xs.length) xs := h.congr fun _ hi => if_pos hi

variable [DecidableEq α]

/-- The loop that copies a string, from index `i` on, with the last index that it writes. -/
def copyFrom (src : Nat → α) : Nat → (Nat → α) → Nat → Option ((Nat → α) × Nat)
  | 0, _, _ => none
  | fuel + 1, dest, i =>
      if src i = 0 then some (update dest i 0, i)
      else copyFrom src fuel (update dest i (src i)) (i + 1)

def copy (fuel : Nat) (dest src : Nat → α) : Option ((Nat → α) × Nat) := copyFrom src fuel dest 0

theorem copyFrom_eq (h : Stands src xs) {i fuel : Nat} (hi : i ≤ xs.length)
    (hdest : ∀ j < i, dest j = src j) (hfuel : xs.length < i + fuel) :
    copyFrom src fuel dest i = some (overwrite dest src xs.length, xs.length) := by
  induction fuel generalizing dest i with
  | zero => omega
  | succ fuel ih =>
      rw [copyFrom]
      rcases Nat.lt_or_eq_of_le hi with hlt | rfl
      · rw [if_neg (h.ne_zero hlt), ih hlt (fun j hj => ?_) (by omega)]
        · refine congrArg (fun m => some (m, _)) (funext fun j => ?_)
          unfold overwrite
          split
          next => rfl
          next hj => exact update_of_ne (by omega) ..
        · rcases Nat.lt_succ_iff_lt_or_eq.mp hj with hlt' | rfl
          · rw [update_of_ne (by omega)]
            exact hdest j hlt'
          · exact update_self ..
      · rw [if_pos h.ended]
        refine congrArg (fun m => some (m, _)) (funext fun j => ?_)
        unfold overwrite
        by_cases hj : j = xs.length
        · rw [hj, update_self, if_pos (Nat.le_refl _), h.ended]
        · rw [update_of_ne hj]
          split
          next hle => exact hdest j (by omega)
          next => rfl

/-- The copy of a string. -/
theorem copy_eq (h : Stands src xs) {fuel : Nat} (hfuel : xs.length < fuel) :
    copy fuel dest src = some (overwrite dest src xs.length, xs.length) :=
  copyFrom_eq h (Nat.zero_le _) (fun j hj => absurd hj (Nat.not_lt_zero j)) (by omega)

end CString
