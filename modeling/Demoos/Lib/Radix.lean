import Mathlib.Algebra.Ring.Nat

/-!
# Trees of tables

A radix tree of `d` levels, in a memory of tables with `b` entries each.  `t k key` is
the table at level `k` under the digits of `key`, and at level `d` it is a value.  An
entry is the encoding of what is below it.

A walk along the digits of a key finds what the tree has under the key, and an entry
that is written adds one node to the tree.
-/

namespace Radix

variable {α ω : Type*}

/-- What there is at each level under each key. -/
abbrev Tree (α : Type*) := Nat → Nat → Option α

/-- The tree whose root is the empty table `g`. -/
def root (g : α) : Tree α := fun k key => if k = 0 ∧ key = 0 then some g else none

def insert (t : Tree α) (k key : Nat) (g : α) : Tree α := fun k' key' =>
  if k' = k ∧ key' = key then some g else t k' key'

/-- The memory `entry` holds the tree `t`, and no two tables of it are one. -/
structure Holds (b d : Nat) (enc : Nat → Option α → ω) (entry : α → Nat → ω) (t : Tree α) :
    Prop where
  entries : ∀ k < d, ∀ key g, t k key = some g → ∀ i < b,
    entry g i = enc (k + 1) (t (k + 1) (key * b + i))
  closed : ∀ k < d, ∀ key, t k (key / b) = none → t (k + 1) key = none
  apart : ∀ k < d, ∀ k' < d, ∀ key key' g, t k key = some g → t k' key' = some g →
    k = k' ∧ key = key'

/-- Follow the digits `is` from the table `g`. -/
def walk (dec : ω → Option α) (entry : α → Nat → ω) : List Nat → α → Option α
  | [], g => some g
  | i :: is, g => (dec (entry g i)).bind (walk dec entry is)

/-- The key with the digits `is` behind those of `key`. -/
def keyOf (b : Nat) (key : Nat) (is : List Nat) : Nat := is.foldl (fun key i => key * b + i) key

variable {b d k key i : Nat} {enc : Nat → Option α → ω} {dec : ω → Option α}
  {entry entry' : α → Nat → ω} {t : Tree α} {g x : α} {is : List Nat}

theorem digit_div (hi : i < b) : (key * b + i) / b = key := by
  rw [Nat.mul_comm, Nat.mul_add_div (Nat.zero_lt_of_lt hi), Nat.div_eq_of_lt hi, Nat.add_zero]

theorem digit_inj {key' i' : Nat} (hi : i < b) (hi' : i' < b) (h : key * b + i = key' * b + i') :
    key = key' ∧ i = i' := by
  have hkey : key = key' := (digit_div hi).symm.trans (h ▸ digit_div hi')
  subst hkey
  exact ⟨rfl, Nat.add_left_cancel h⟩

namespace Holds

theorem congr (h : Holds b d enc entry t)
    (heq : ∀ k < d, ∀ key g, t k key = some g → ∀ i < b, entry' g i = entry g i) :
    Holds b d enc entry' t where
  entries k hk key g hg i hi := (heq k hk key g hg i hi).trans (h.entries k hk key g hg i hi)
  closed := h.closed
  apart := h.apart

theorem missing (h : Holds b d enc entry t) (hnone : t k key = none) (his : ∀ i ∈ is, i < b)
    (hk : k + is.length ≤ d) : t (k + is.length) (keyOf b key is) = none := by
  induction is generalizing k key with
  | nil => exact hnone
  | cons i is ih =>
      rw [List.length_cons] at hk ⊢
      have hnext : t (k + 1) (key * b + i) = none :=
        h.closed k (by omega) _ (by rw [digit_div (his i List.mem_cons_self)]; exact hnone)
      have hrest := ih hnext (fun j hj => his j (List.mem_cons_of_mem i hj)) (by omega)
      rw [← hrest, Nat.add_assoc, Nat.add_comm 1]
      rfl

/-- What there is under a key has a root above it. -/
theorem above (h : Holds b d enc entry t) (hk : k ≤ d) (hsome : t k key ≠ none) :
    t 0 (key / b ^ k) ≠ none := by
  induction k generalizing key with
  | zero => rwa [Nat.pow_zero, Nat.div_one]
  | succ k ih =>
      have hparent : t k (key / b) ≠ none := fun hnone => hsome (h.closed k (by omega) key hnone)
      rw [Nat.pow_succ', ← Nat.div_div_eq_div_mul]
      exact ih (by omega) hparent

/-- A walk finds what the tree has. -/
theorem walk_eq (h : Holds b d enc entry t)
    (hdec : ∀ k ≤ d, ∀ key, dec (enc k (t k key)) = t k key)
    (hg : t k key = some g) (his : ∀ i ∈ is, i < b) (hk : k + is.length ≤ d) :
    walk dec entry is g = t (k + is.length) (keyOf b key is) := by
  induction is generalizing k key g with
  | nil => exact hg.symm
  | cons i is ih =>
      rw [List.length_cons] at hk ⊢
      have hi : i < b := his i List.mem_cons_self
      have his' : ∀ j ∈ is, j < b := fun j hj => his j (List.mem_cons_of_mem i hj)
      have hlen : k + (is.length + 1) = k + 1 + is.length := by omega
      rw [walk, h.entries k (by omega) key g hg i hi, hdec (k + 1) (by omega), hlen]
      cases hnext : t (k + 1) (key * b + i) with
      | none => exact (h.missing hnext his' (by omega)).symm
      | some g' => exact ih hnext his' (by omega)

/-- An empty table is a tree. -/
theorem root (hzero : ∀ i < b, entry g i = enc 1 none) :
    Holds b d enc entry (root g) where
  entries k hk key g' hg i hi := by
    unfold Radix.root at hg ⊢
    split at hg
    next he =>
      obtain ⟨rfl, rfl⟩ := he
      rw [← Option.some.inj hg, if_neg fun he => absurd he.1 (Nat.succ_ne_zero 0)]
      exact hzero i hi
    next => exact absurd hg nofun
  closed k hk key _ := if_neg fun he => absurd he.1 (Nat.succ_ne_zero k)
  apart k hk k' hk' key key' g' hg hg' := by
    unfold Radix.root at hg hg'
    split at hg
    next he =>
      split at hg'
      next he' => exact ⟨he.1.trans he'.1.symm, he.2.trans he'.2.symm⟩
      next => exact absurd hg' nofun
    next => exact absurd hg nofun

/-- A write to entry `i` of the table under `key` puts `x` there, which is a value or
an empty table that the tree does not have. -/
theorem insert (h : Holds b d enc entry t) (hk : k < d) (hg : t k key = some g) (hi : i < b)
    (hwrite : entry' g i = enc (k + 1) (some x))
    (hframe : ∀ k' < d, ∀ key' g', t k' key' = some g' → ∀ j < b, ¬ (g' = g ∧ j = i) →
      entry' g' j = entry g' j)
    (hnew : k + 1 < d → t (k + 1) (key * b + i) = none ∧ (∀ k' < d, ∀ key', t k' key' ≠ some x) ∧
      ∀ j < b, entry' x j = enc (k + 2) none) :
    Holds b d enc entry' (insert t (k + 1) (key * b + i) x) where
  entries k' hk' key' g' hg' j hj := by
    unfold Radix.insert at hg' ⊢
    split at hg'
    next he =>
      obtain ⟨rfl, rfl⟩ := he
      obtain rfl := Option.some.inj hg'
      obtain ⟨hnone, _, hzero⟩ := hnew hk'
      rw [hzero j hj, if_neg fun he => absurd he.1 (by omega),
        h.closed (k + 1) hk' _ (by rw [digit_div hj]; exact hnone)]
    next =>
      by_cases he : g' = g ∧ j = i
      · obtain ⟨rfl, rfl⟩ := he
        obtain ⟨rfl, rfl⟩ := h.apart k' hk' k hk key' key g' hg' hg
        rw [hwrite, if_pos ⟨rfl, rfl⟩]
      · rw [hframe k' hk' key' g' hg' j hj he, h.entries k' hk' key' g' hg' j hj, if_neg]
        rintro ⟨hlevel, hkey⟩
        obtain rfl := Nat.succ.inj hlevel
        obtain ⟨rfl, rfl⟩ := digit_inj hj hi hkey
        exact he ⟨Option.some.inj (hg'.symm.trans hg), rfl⟩
  closed k' hk' key' hnone := by
    unfold Radix.insert at hnone ⊢
    split at hnone
    next => exact absurd hnone nofun
    next =>
      rw [if_neg, h.closed k' hk' key' hnone]
      rintro ⟨hlevel, rfl⟩
      obtain rfl := Nat.succ.inj hlevel
      rw [digit_div hi, hg] at hnone
      exact absurd hnone nofun
  apart k₁ hk₁ k₂ hk₂ key₁ key₂ g' hg₁ hg₂ := by
    unfold Radix.insert at hg₁ hg₂
    split at hg₁
    next he₁ =>
      obtain ⟨rfl, rfl⟩ := he₁
      obtain rfl := Option.some.inj hg₁
      split at hg₂
      next he₂ => exact ⟨he₂.1.symm, he₂.2.symm⟩
      next => exact absurd hg₂ ((hnew hk₁).2.1 k₂ hk₂ key₂)
    next =>
      split at hg₂
      next he₂ =>
        obtain ⟨rfl, rfl⟩ := he₂
        obtain rfl := Option.some.inj hg₂
        exact absurd hg₁ ((hnew hk₂).2.1 k₁ hk₁ key₁)
      next => exact h.apart k₁ hk₁ k₂ hk₂ key₁ key₂ g' hg₁ hg₂

end Holds

end Radix
