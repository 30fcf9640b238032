import Mathlib.Data.BitVec
import Mathlib.Logic.Function.Basic

/-!
# Numbers in byte arrays

A number of `n` bytes is stored with its low byte first.  What is read back is what
was written, and bytes outside of it do not change.
-/

namespace Bytes

open Function (update update_self update_of_ne)

/-- The number in the `n` bytes from `i` on. -/
def read (m : Nat → BitVec 8) (i : Nat) : Nat → Nat
  | 0 => 0
  | n + 1 => (m i).toNat + 256 * read m (i + 1) n

/-- Store the low `n` bytes of a number from `i` on. -/
def write (m : Nat → BitVec 8) (i : Nat) : Nat → Nat → Nat → BitVec 8
  | 0, _ => m
  | n + 1, v => update (write m (i + 1) n (v / 256)) i (BitVec.ofNat 8 v)

variable {m m' : Nat → BitVec 8} {i j k n v : Nat}

theorem write_outside (h : j < i ∨ i + n ≤ j) : write m i n v j = m j := by
  induction n generalizing i v with
  | zero => rfl
  | succ n ih =>
      rw [write, update_of_ne (by omega)]
      exact ih (by omega)

/-- Where the number is written, what was there before does not count. -/
theorem write_congr (h : (i ≤ j ∧ j < i + n) ∨ m j = m' j) :
    write m i n v j = write m' i n v j := by
  induction n generalizing i v with
  | zero => exact h.resolve_left (by omega)
  | succ n ih =>
      rw [write, write]
      by_cases hj : j = i
      · rw [hj, update_self, update_self]
      · rw [update_of_ne hj, update_of_ne hj]
        exact ih (h.imp_left fun h => by omega)

theorem read_congr (h : ∀ j, i ≤ j → j < i + n → m j = m' j) : read m i n = read m' i n := by
  induction n generalizing i with
  | zero => rfl
  | succ n ih =>
      rw [read, read, h i (Nat.le_refl i) (by omega), ih fun j hj hlt => h j (by omega) (by omega)]

theorem read_lt : read m i n < 256 ^ n := by
  induction n generalizing i with
  | zero => exact Nat.one_pos
  | succ n ih =>
      have hrest := ih (i := i + 1)
      have hbyte := (m i).isLt
      rw [read, Nat.pow_succ]
      omega

theorem read_write (hv : v < 256 ^ n) : read (write m i n v) i n = v := by
  induction n generalizing i v with
  | zero =>
      rw [Nat.pow_zero] at hv
      rw [read]
      omega
  | succ n ih =>
      have hhigh : v / 256 < 256 ^ n := by
        rw [Nat.pow_succ] at hv
        omega
      have hrest : read (write m i (n + 1) v) (i + 1) n = v / 256 := by
        rw [← ih hhigh (i := i + 1)]
        exact read_congr fun j hj _ => update_of_ne (by omega) _ _
      rw [read, hrest, write, update_self, BitVec.toNat_ofNat]
      omega

theorem read_write_of_disjoint (h : i + n ≤ j ∨ j + k ≤ i) :
    read (write m i n v) j k = read m j k :=
  read_congr fun _ _ _ => write_outside (by omega)

theorem read_zero (h : ∀ j, i ≤ j → j < i + n → m j = 0) : read m i n = 0 := by
  induction n generalizing i with
  | zero => rfl
  | succ n ih =>
      rw [read, h i (Nat.le_refl i) (by omega), ih fun j hj hlt => h j (by omega) (by omega)]
      rfl

end Bytes
