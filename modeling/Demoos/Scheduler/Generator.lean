import Demoos.Lib.ShiftXor
import Demoos.Scheduler.Operations

/-!
# The generator of the lottery

`lottery_random` xors its state with the timer and scrambles what it gets in three rounds.  The rounds
are a bijection that fixes zero, and the seed takes the place of a zero before them.  So the state is
never zero after a call, whatever the timer shows.
-/

namespace Demoos

open Function (Bijective)

theorem mixed_ne_zero (state : BitVec 64) (timer : BitVec 32) : mixed state timer ≠ 0 := by
  unfold mixed
  dsimp only
  split
  next => decide
  next hne => exact hne

theorem rounds_bijective : Bijective rounds := by
  have hfirst : Bijective fun x : BitVec 64 => x ^^^ (x <<< 13) :=
    ShiftXor.bijective_shiftLeft (by decide)
  have hsecond : Bijective fun x : BitVec 64 => x ^^^ (x >>> 7) :=
    ShiftXor.bijective_ushiftRight (by decide)
  have hthird : Bijective fun x : BitVec 64 => x ^^^ (x <<< 17) :=
    ShiftXor.bijective_shiftLeft (by decide)
  exact hthird.comp (hsecond.comp hfirst)

theorem rounds_ne_zero {x : BitVec 64} (h : x ≠ 0) : rounds x ≠ 0 := by
  intro hzero
  have hfixed : rounds 0 = 0 := rfl
  exact h (rounds_bijective.injective (hzero.trans hfixed.symm))

/-- A call returns the rounds of the mixed state and keeps them as the new state. -/
structure Draws (s : KState) (x : BitVec 64) (t : KState) : Prop where
  value : x = rounds (mixed s.lotteryRngState (s.systemTimer 0))
  kept : t.lotteryRngState = x
  ne_zero : x ≠ 0

theorem draws_lotteryRandom (s : KState) : Draws s (lotteryRandom s).1 (lotteryRandom s).2 :=
  ⟨rfl, rfl, rounds_ne_zero (mixed_ne_zero _ _)⟩

/-- The state behind `n` calls. -/
def drawn (s : KState) : Nat → KState
  | 0 => s
  | n + 1 => (lotteryRandom (drawn s n)).2

/-- The rounds lose nothing, every call returns and keeps the rounds of its mixed state, and none
returns or leaves a zero. -/
theorem generator_neverStuck :
    Bijective rounds ∧ (∀ x ≠ 0, rounds x ≠ 0) ∧
      (∀ state timer, xorshift state timer = rounds (mixed state timer)) ∧
      ∀ (s : KState) (n : Nat),
        Draws (drawn s n) (lotteryRandom (drawn s n)).1 (drawn s (n + 1)) :=
  ⟨rounds_bijective, fun _ => rounds_ne_zero, fun _ _ => rfl,
    fun s n => draws_lotteryRandom (drawn s n)⟩

/-- The second reading of the timer cancels the state, and the number is drawn from the seed. -/
theorem generator_cancelled : ∃ s : KState, (lotteryRandom s).1 = 1082269761 ∧
    (lotteryRandom (drawn s 1)).1 = 8748534153485358512 ∧
    Draws (drawn s 1) (lotteryRandom (drawn s 1)).1 (drawn s 2) :=
  ⟨{ boot fun i => if i = 0 then 0 else 1082269761 with lotteryRngState := 1 }, by decide, by decide,
    generator_neverStuck.2.2.2 _ 1⟩

end Demoos
