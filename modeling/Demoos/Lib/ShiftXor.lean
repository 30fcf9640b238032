import Mathlib.Data.BitVec
import Mathlib.Data.Fintype.EquivFin

/-!
# Shift and xor

A generator scrambles a word with rounds that xor it with a shift of itself.  A shift is additive
for xor and has no fixed point but zero.  So a round is injective, and it is a bijection since there
are finitely many words.
-/

namespace ShiftXor

open Function (Bijective Injective)

variable {w k : Nat} {x : BitVec w}

/-! ## Fixed points of shifts -/

theorem eq_zero_of_shiftLeft (hk : 0 < k) (h : x <<< k = x) : x = 0 := by
  have hbit : ∀ i, x.getLsbD i = false := by
    intro i
    induction i using Nat.strong_induction_on with
    | h i ih =>
      rw [← h, BitVec.getLsbD_shiftLeft]
      rcases Nat.lt_or_ge i k with hlt | hge
      · simp [hlt]
      · simp [ih (i - k) (by omega)]
  refine BitVec.eq_of_getLsbD_eq fun i _ => ?_
  rw [hbit i]
  exact BitVec.getLsbD_zero.symm

theorem eq_zero_of_ushiftRight (hk : 0 < k) (h : x >>> k = x) : x = 0 := by
  have hdiv : x.toNat / 2 ^ k = x.toNat := by
    rw [← Nat.shiftRight_eq_div_pow, ← BitVec.toNat_ushiftRight, h]
  by_contra hne
  have hpos : 0 < x.toNat := Nat.pos_of_ne_zero fun he => hne (BitVec.eq_of_toNat_eq he)
  exact absurd hdiv (Nat.ne_of_lt (Nat.div_lt_self hpos (Nat.one_lt_two_pow (Nat.ne_of_gt hk))))

/-! ## Rounds -/

/-- A word with its image under an additive map, which fixes only zero. -/
theorem injective_xor {f : BitVec w → BitVec w} (hadd : ∀ x y, f (x ^^^ y) = f x ^^^ f y)
    (hfix : ∀ x, f x = x → x = 0) : Injective fun x => x ^^^ f x := by
  intro x y h
  have hsum : f (x ^^^ y) = x ^^^ y := by
    rw [hadd]
    calc f x ^^^ f y = x ^^^ (x ^^^ f x) ^^^ f y := by
          rw [← BitVec.xor_assoc, BitVec.xor_self, BitVec.zero_xor]
      _ = x ^^^ (y ^^^ f y) ^^^ f y := congrArg (fun z => x ^^^ z ^^^ f y) h
      _ = x ^^^ y := by rw [BitVec.xor_assoc, BitVec.xor_assoc, BitVec.xor_self, BitVec.xor_zero]
  exact BitVec.xor_eq_zero_iff.mp (hfix _ hsum)

/-- There are finitely many words. -/
theorem bijective_of_injective {f : BitVec w → BitVec w} (h : Injective f) : Bijective f :=
  have : Finite (BitVec w) := .of_injective _ BitVec.toFin_injective
  Finite.injective_iff_bijective.mp h

theorem bijective_shiftLeft (hk : 0 < k) : Bijective fun x : BitVec w => x ^^^ (x <<< k) :=
  bijective_of_injective <| injective_xor (fun x y => BitVec.shiftLeft_xor_distrib x y k)
    fun _ => eq_zero_of_shiftLeft hk

theorem bijective_ushiftRight (hk : 0 < k) : Bijective fun x : BitVec w => x ^^^ (x >>> k) :=
  bijective_of_injective <| injective_xor (fun x y => BitVec.ushiftRight_xor_distrib x y k)
    fun _ => eq_zero_of_ushiftRight hk

end ShiftXor
