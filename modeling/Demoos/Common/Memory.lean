import Demoos.Lib.Arm

/-!
# The memory primitives

The text of `common/memory.S`.
-/

namespace Demoos

open Arm
open Function (update update_self update_of_ne)

inductive MemoryLabel where
  | memzero
  | memcpy
  | memcmp
  | lLoop
  | lEqual
  | memset
  | lExit
deriving DecidableEq, Repr

/-- `common/memory.S` -/
def memoryText : List (Line MemoryLabel) :=
  [ .label .memzero,
    .instr (.strXzr 0 8),
    .instr (.subsX 1 1 8),
    .instr (.bgt .memzero),
    .instr .ret,

    .label .memcpy,
    .instr (.ldrb 3 1 1),
    .instr (.strb 3 0 1),
    .instr (.subsW 2 2 1),
    .instr (.bgt .memcpy),
    .instr .ret,

    .label .memcmp,
    .instr (.cbzX 2 .lEqual),
    .label .lLoop,
    .instr (.ldrb 3 0 1),
    .instr (.ldrb 4 1 1),
    .instr (.subsWReg 5 3 4),
    .instr (.cbnzW 5 .lExit),
    .instr (.subsX 2 2 1),
    .instr (.cbnzX 2 .lLoop),
    .label .lEqual,
    .instr (.movW 5 0),

    .label .memset,
    .instr (.cbzX 2 .lExit),
    .instr (.strb 1 0 0),
    .instr (.addX 0 0 1),
    .instr (.subX 2 2 1),
    .instr (.b .memset),
    .label .lExit,
    .instr (.movWReg 0 5),
    .instr .ret ]

variable {Q : State → Prop} {s : State} {n k : Nat}

/-! ## `memcpy` -/

/-- One iteration of the loop. -/
def copyByte (s : State) : State :=
  (Instr.subsW (L := MemoryLabel) 2 2 1).exec
    ((Instr.strb (L := MemoryLabel) 3 0 1).exec ((Instr.ldrb (L := MemoryLabel) 3 1 1).exec s))

theorem x_copyByte_zero (s : State) : (copyByte s).x 0 = s.x 0 + 1 := by
  simp [copyByte, Instr.exec]

theorem x_copyByte_one (s : State) : (copyByte s).x 1 = s.x 1 + 1 := by
  simp [copyByte, Instr.exec]

theorem w_copyByte (s : State) : (copyByte s).w 2 = s.w 2 - 1 := by
  simp [copyByte, Instr.exec]

theorem memory_copyByte (s : State) :
    (copyByte s).memory = update s.memory (s.x 0) (s.memory (s.x 1)) := by
  simp [copyByte, Instr.exec]

theorem gt_copyByte (h : (s.w 2).msb = false) :
    (copyByte s).gt = decide (1 < (s.w 2).toNat) := by
  simp [copyByte, Instr.exec, gt_compare, h]

theorem memcpy_iteration (h : (s.w 2).msb = false) :
    Ends memoryText Q (behind memoryText .memcpy) s ↔
      if 1 < (s.w 2).toNat then Ends memoryText Q (behind memoryText .memcpy) (copyByte s)
      else Q (copyByte s) := by
  change Ends memoryText Q (.instr (.ldrb 3 1 1) :: _) s ↔ _
  rw [ends_next (by decide) rfl, ends_next (by decide) rfl, ends_next (by decide) rfl, ends_bgt,
    ends_ret]
  change (if (copyByte s).gt = true then _ else _) ↔ _
  rw [gt_copyByte h]
  simp only [decide_eq_true_eq]
  rfl

/-- No byte of the source has been overwritten when it is read. -/
def Unspoiled (d e : Address) (n : Nat) : Prop :=
  ∀ i j, i < j → j < n → d + BitVec.ofNat 64 i ≠ e + BitVec.ofNat 64 j

theorem add_ofNat_succ (a : Address) (i : Nat) :
    a + BitVec.ofNat 64 (i + 1) = a + 1 + BitVec.ofNat 64 i := by
  rw [BitVec.ofNat_add, BitVec.add_comm (BitVec.ofNat 64 i), ← BitVec.add_assoc]
  rfl

theorem Unspoiled.next {d e : Address} (h : Unspoiled d e (n + 1)) :
    Unspoiled (d + 1) (e + 1) n := by
  intro i j hij hj
  rw [← add_ofNat_succ, ← add_ofNat_succ]
  exact h (i + 1) (j + 1) (by omega) (by omega)

/-- The first byte is copied before the others. -/
theorem filled_copy {m : Memory} {d e : Address} (hk : k + 1 < 2 ^ 64)
    (h : Unspoiled d e (k + 1)) :
    filled (update m d (m e)) (d + 1) k (fun x => update m d (m e) (e + 1 + x)) =
      filled m d (k + 1) fun x => m (e + x) := by
  have hone : update m d (m e) = filled m d 1 fun x => m (e + x) := by
    rw [filled_one]
    exact congrArg (fun a => update m d (m a)) (BitVec.add_zero e).symm
  rw [Nat.add_comm k, hone]
  refine filled_append (by omega) fun x hx => ?_
  have hnext : e + 1 + x = e + BitVec.ofNat 64 (x.toNat + 1) := by
    rw [add_ofNat_succ, BitVec.ofNat_toNat, BitVec.setWidth_eq]
  have hne : e + 1 + x ≠ d := by
    rw [hnext]
    have hspoil := h 0 (x.toNat + 1) (by omega) (by omega)
    rw [BitVec.add_zero] at hspoil
    exact hspoil.symm
  rw [← hone, update_of_ne hne, BitVec.add_comm x, ← BitVec.add_assoc]
  rfl

/-- A count of zero is taken for one. -/
theorem ends_memcpy (hw : max 1 (s.w 2).toNat = k + 1) (hk : k + 1 < 2 ^ 31)
    (h : Unspoiled (s.x 0) (s.x 1) (k + 1)) :
    Ends memoryText
      (fun t => t.memory = filled s.memory (s.x 0) (k + 1) fun x => s.memory (s.x 1 + x))
      (behind memoryText .memcpy) s := by
  induction k generalizing s with
  | zero =>
      have hmsb : (s.w 2).msb = false := BitVec.msb_eq_false_iff_two_mul_lt.mpr (by omega)
      rw [memcpy_iteration hmsb, if_neg (by omega), memory_copyByte, ← filled_copy (by omega) h,
        filled_zero]
  | succ k ih =>
      have hmsb : (s.w 2).msb = false := BitVec.msb_eq_false_iff_two_mul_lt.mpr (by omega)
      have hpos : (s.w 2).toNat = k + 1 + 1 := by omega
      have hcount : ((copyByte s).w 2).toNat = k + 1 := by
        rw [w_copyByte, toNat_sub_one hpos]
      have hrest : Unspoiled ((copyByte s).x 0) ((copyByte s).x 1) (k + 1) := by
        rw [x_copyByte_zero, x_copyByte_one]
        exact h.next
      rw [memcpy_iteration hmsb, if_pos (by omega), ← filled_copy (by omega) h, ← memory_copyByte,
        ← x_copyByte_zero, ← x_copyByte_one]
      exact ih (by omega) (by omega) hrest

/-! ## `memzero` -/

/-- One iteration of the loop. -/
def clearEight (s : State) : State :=
  (Instr.subsX (L := MemoryLabel) 1 1 8).exec ((Instr.strXzr (L := MemoryLabel) 0 8).exec s)

theorem x_clearEight_zero (s : State) : (clearEight s).x 0 = s.x 0 + 8 := by
  simp [clearEight, Instr.exec]

theorem x_clearEight_one (s : State) : (clearEight s).x 1 = s.x 1 - 8 := by
  simp [clearEight, Instr.exec]

theorem memory_clearEight (s : State) :
    (clearEight s).memory = filled s.memory (s.x 0) 8 fun _ => 0 := by
  simp [clearEight, Instr.exec]

theorem gt_clearEight (h : (s.x 1).msb = false) :
    (clearEight s).gt = decide (8 < (s.x 1).toNat) := by
  have height : (8#64).msb = false := by decide
  simp [clearEight, Instr.exec, gt_compare, h, height]

theorem memzero_iteration (h : (s.x 1).msb = false) :
    Ends memoryText Q (behind memoryText .memzero) s ↔
      if 8 < (s.x 1).toNat then Ends memoryText Q (behind memoryText .memzero) (clearEight s)
      else Q (clearEight s) := by
  change Ends memoryText Q (.instr (.strXzr 0 8) :: _) s ↔ _
  rw [ends_next (by decide) rfl, ends_next (by decide) rfl, ends_bgt, ends_ret]
  change (if (clearEight s).gt = true then _ else _) ↔ _
  rw [gt_clearEight h]
  simp only [decide_eq_true_eq]
  rfl

/-- The count is rounded up to the next positive multiple of eight. -/
theorem ends_memzero (hlow : 8 * k < (s.x 1).toNat ∨ k = 0) (hhigh : (s.x 1).toNat ≤ 8 * (k + 1))
    (hx : (s.x 1).toNat < 2 ^ 31) :
    Ends memoryText (fun t => t.memory = filled s.memory (s.x 0) (8 * (k + 1)) fun _ => 0)
      (behind memoryText .memzero) s := by
  induction k generalizing s with
  | zero =>
      have hmsb : (s.x 1).msb = false := BitVec.msb_eq_false_iff_two_mul_lt.mpr (by omega)
      rw [memzero_iteration hmsb, if_neg (by omega)]
      exact memory_clearEight s
  | succ k ih =>
      have hmsb : (s.x 1).msb = false := BitVec.msb_eq_false_iff_two_mul_lt.mpr (by omega)
      have hcount : ((clearEight s).x 1).toNat = (s.x 1).toNat - 8 := by
        rw [x_clearEight_one, BitVec.toNat_sub_of_le (by simp [BitVec.le_def]; omega)]
        rfl
      have hrest := ih (s := clearEight s) (by omega) (by omega) (by omega)
      rw [memzero_iteration hmsb, if_pos (by omega)]
      refine hrest.imp fun t ht => ?_
      rw [ht, memory_clearEight, x_clearEight_zero, Nat.mul_succ 8 (k + 1), Nat.add_comm _ 8]
      exact filled_append (by omega) fun _ _ => rfl

/-! ## `memset` -/

/-- One iteration of the loop. -/
def setByte (s : State) : State :=
  (Instr.subX (L := MemoryLabel) 2 2 1).exec
    ((Instr.addX (L := MemoryLabel) 0 0 1).exec ((Instr.strb (L := MemoryLabel) 1 0 0).exec s))

theorem x_setByte_zero (s : State) : (setByte s).x 0 = s.x 0 + 1 := by
  simp [setByte, Instr.exec]

theorem w_setByte_one (s : State) : (setByte s).w 1 = s.w 1 := by
  simp [setByte, Instr.exec]

theorem x_setByte_two (s : State) : (setByte s).x 2 = s.x 2 - 1 := by
  simp [setByte, Instr.exec]

theorem memory_setByte (s : State) :
    (setByte s).memory = update s.memory (s.x 0) ((s.w 1).setWidth 8) := by
  simp [setByte, Instr.exec]

theorem memset_iteration :
    Ends memoryText Q (behind memoryText .memset) s ↔
      if s.x 2 = 0 then Q (s.setW 0 (s.w 5))
      else Ends memoryText Q (behind memoryText .memset) (setByte s) := by
  change Ends memoryText Q (.instr (.cbzX 2 .lExit) :: _) s ↔ _
  rw [ends_cbzX]
  have hexit : Ends memoryText Q (behind memoryText .lExit) s ↔ Q (s.setW 0 (s.w 5)) := by
    change Ends memoryText Q (.instr (.movWReg 0 5) :: _) s ↔ _
    rw [ends_next (by decide) rfl, ends_ret]
    rfl
  rw [hexit, ends_next (by decide) rfl, ends_next (by decide) rfl, ends_next (by decide) rfl,
    ends_b]
  rfl

theorem ends_memset (hx : (s.x 2).toNat = n) :
    Ends memoryText
      (fun t => t.memory = filled s.memory (s.x 0) n fun _ => (s.w 1).setWidth 8)
      (behind memoryText .memset) s := by
  induction n generalizing s with
  | zero =>
      have hzero : s.x 2 = 0 := BitVec.eq_of_toNat_eq hx
      rw [memset_iteration, if_pos hzero, filled_zero]
      rfl
  | succ n ih =>
      have hne : s.x 2 ≠ 0 := fun he => by simp [he] at hx
      have hcount : ((setByte s).x 2).toNat = n := by
        rw [x_setByte_two, toNat_sub_one hx]
      have hlt : n + 1 < 2 ^ 64 := hx ▸ (s.x 2).isLt
      rw [memset_iteration, if_neg hne]
      refine (ih hcount).imp fun t ht => ?_
      rw [ht, memory_setByte, x_setByte_zero, w_setByte_one, Nat.add_comm n,
        ← filled_one s.memory (s.x 0) fun _ => (s.w 1).setWidth 8]
      exact filled_append (by omega) fun _ _ => rfl

/-! ## `memcmp` -/

/-- What the comparison of two bytes does. -/
def compareByte (s : State) : State :=
  (Instr.subsWReg (L := MemoryLabel) 5 3 4).exec
    ((Instr.ldrb (L := MemoryLabel) 4 1 1).exec ((Instr.ldrb (L := MemoryLabel) 3 0 1).exec s))

def countDown (s : State) : State := (Instr.subsX (L := MemoryLabel) 2 2 1).exec s

theorem w_compareByte (s : State) :
    (compareByte s).w 5 = (s.memory (s.x 0)).setWidth 32 - (s.memory (s.x 1)).setWidth 32 := by
  simp [compareByte, Instr.exec]

theorem w_compareByte_eq_zero (s : State) :
    (compareByte s).w 5 = 0 ↔ s.memory (s.x 0) = s.memory (s.x 1) := by
  rw [w_compareByte]
  constructor
  · intro h
    have heq := congrArg (BitVec.setWidth 8) (BitVec.sub_eq_iff_eq_add.mp h)
    simpa using heq
  · intro h
    rw [h]
    exact BitVec.sub_self _

/-- Behind the last pair of bytes the count is zero, and `memset` is left at once. -/
theorem ends_lEqual (hx : s.x 2 = 0) :
    Ends memoryText Q (behind memoryText .lEqual) s ↔ Q ((s.setW 5 0).setW 0 0) := by
  change Ends memoryText Q (.instr (.movW 5 0) :: .label .memset :: behind memoryText .memset) s ↔ _
  rw [ends_next (by decide) rfl, ends_label, memset_iteration]
  have hzero : ((Instr.movW (L := MemoryLabel) 5 0).exec s).x 2 = 0 := by
    simpa [Instr.exec] using hx
  rw [if_pos hzero]
  simp [Instr.exec]

theorem ends_lExit : Ends memoryText Q (behind memoryText .lExit) s ↔ Q (s.setW 0 (s.w 5)) := by
  change Ends memoryText Q (.instr (.movWReg 0 5) :: _) s ↔ _
  rw [ends_next (by decide) rfl, ends_ret]
  rfl

theorem lLoop_iteration :
    Ends memoryText Q (behind memoryText .lLoop) s ↔
      if (compareByte s).w 5 = 0 then
        if (countDown (compareByte s)).x 2 = 0 then
          Ends memoryText Q (behind memoryText .lEqual) (countDown (compareByte s))
        else Ends memoryText Q (behind memoryText .lLoop) (countDown (compareByte s))
      else Ends memoryText Q (behind memoryText .lExit) (compareByte s) := by
  change Ends memoryText Q (.instr (.ldrb 3 0 1) :: _) s ↔ _
  rw [ends_next (by decide) rfl, ends_next (by decide) rfl, ends_next (by decide) rfl, ends_cbnzW,
    ends_next (by decide) rfl, ends_cbnzX, ends_label]
  rfl

/-- The first `n` bytes at two addresses agree. -/
def Agree (m : Memory) (a b : Address) (n : Nat) : Prop :=
  ∀ i < n, m (a + BitVec.ofNat 64 i) = m (b + BitVec.ofNat 64 i)

theorem agree_succ {m : Memory} {a b : Address} :
    Agree m a b (n + 1) ↔ m a = m b ∧ Agree m (a + 1) (b + 1) n := by
  constructor
  · intro h
    refine ⟨?_, fun i hi => ?_⟩
    · have hfirst := h 0 (Nat.succ_pos n)
      rwa [BitVec.add_zero, BitVec.add_zero] at hfirst
    · have hnext := h (i + 1) (by omega)
      rwa [add_ofNat_succ, add_ofNat_succ] at hnext
  · rintro ⟨hfirst, hrest⟩ i hi
    cases i with
    | zero => rwa [BitVec.add_zero, BitVec.add_zero]
    | succ i =>
        rw [add_ofNat_succ, add_ofNat_succ]
        exact hrest i (by omega)

/-- The state of the next iteration. -/
theorem countDown_compareByte (s : State) :
    (countDown (compareByte s)).x 0 = s.x 0 + 1 ∧ (countDown (compareByte s)).x 1 = s.x 1 + 1 ∧
      (countDown (compareByte s)).x 2 = s.x 2 - 1 ∧
      (countDown (compareByte s)).memory = s.memory := by
  simp [countDown, compareByte, Instr.exec]

theorem ends_lLoop_of_ne (hne : s.memory (s.x 0) ≠ s.memory (s.x 1)) :
    Ends memoryText (fun t => t.w 0 ≠ 0 ∧ t.memory = s.memory) (behind memoryText .lLoop) s := by
  have hw : (compareByte s).w 5 ≠ 0 := fun h => hne ((w_compareByte_eq_zero s).mp h)
  rw [lLoop_iteration, if_neg hw, ends_lExit]
  exact ⟨by simpa using hw, by simp [compareByte, Instr.exec]⟩

theorem ends_lLoop (hx : (s.x 2).toNat = n + 1) :
    Ends memoryText
      (fun t => (t.w 0 = 0 ↔ Agree s.memory (s.x 0) (s.x 1) (n + 1)) ∧ t.memory = s.memory)
      (behind memoryText .lLoop) s := by
  induction n generalizing s with
  | zero =>
      by_cases heq : s.memory (s.x 0) = s.memory (s.x 1)
      · obtain ⟨_, _, hcount, hmemory⟩ := countDown_compareByte s
        have hone : s.x 2 = 1 := BitVec.eq_of_toNat_eq hx
        have hzero : (countDown (compareByte s)).x 2 = 0 := by
          rw [hcount, hone]
          rfl
        rw [lLoop_iteration, if_pos ((w_compareByte_eq_zero s).mpr heq), if_pos hzero,
          ends_lEqual hzero, agree_succ]
        have hnone : Agree s.memory (s.x 0 + 1) (s.x 1 + 1) 0 :=
          fun i hi => absurd hi (Nat.not_lt_zero i)
        exact ⟨iff_of_true (by simp) ⟨heq, hnone⟩, hmemory⟩
      · refine (ends_lLoop_of_ne heq).imp fun t ht => ?_
        exact ⟨iff_of_false ht.1 fun h => heq (agree_succ.mp h).1, ht.2⟩
  | succ n ih =>
      by_cases heq : s.memory (s.x 0) = s.memory (s.x 1)
      · obtain ⟨hfirst, hsecond, hcount, hmemory⟩ := countDown_compareByte s
        have hrest : ((countDown (compareByte s)).x 2).toNat = n + 1 := by
          rw [hcount, toNat_sub_one hx]
        have hne : (countDown (compareByte s)).x 2 ≠ 0 := fun he => by simp [he] at hrest
        rw [lLoop_iteration, if_pos ((w_compareByte_eq_zero s).mpr heq), if_neg hne, agree_succ,
          and_iff_right heq, ← hfirst, ← hsecond, ← hmemory]
        exact ih hrest
      · refine (ends_lLoop_of_ne heq).imp fun t ht => ?_
        exact ⟨iff_of_false ht.1 fun h => heq (agree_succ.mp h).1, ht.2⟩

theorem ends_memcmp (hx : (s.x 2).toNat = n) :
    Ends memoryText
      (fun t => (t.w 0 = 0 ↔ Agree s.memory (s.x 0) (s.x 1) n) ∧ t.memory = s.memory)
      (behind memoryText .memcmp) s := by
  change Ends memoryText _ (.instr (.cbzX 2 .lEqual) :: .label .lLoop :: behind memoryText .lLoop) s
  rw [ends_cbzX, ends_label]
  cases n with
  | zero =>
      have hzero : s.x 2 = 0 := BitVec.eq_of_toNat_eq hx
      rw [if_pos hzero, ends_lEqual hzero]
      exact ⟨iff_of_true (by simp) fun i hi => absurd hi (Nat.not_lt_zero i), rfl⟩
  | succ n =>
      have hne : s.x 2 ≠ 0 := fun he => by simp [he] at hx
      rw [if_neg hne]
      exact ends_lLoop hx

/-! ## Contracts -/

/-- From `m` to `m'` exactly the bytes at `d + 0`, …, `d + (n - 1)` are set, to `f 0`, …,
`f (n - 1)`. -/
structure SetsExactly (m m' : Memory) (d : Address) (n : Nat) (f : BitVec 64 → BitVec 8) : Prop where
  inside : ∀ i < n, m' (d + BitVec.ofNat 64 i) = f (BitVec.ofNat 64 i)
  outside : ∀ a, (∀ i < n, a ≠ d + BitVec.ofNat 64 i) → m' a = m a

/-- A loop that sets too many bytes must find in the others what it writes there. -/
theorem setsExactly_filled {m : Memory} {d : Address} {f : BitVec 64 → BitVec 8} {r : Nat}
    (hn : n ≤ r) (hr : r ≤ 2 ^ 64) :
    SetsExactly m (filled m d r f) d n f ↔
      ∀ i, n ≤ i → i < r → m (d + BitVec.ofNat 64 i) = f (BitVec.ofNat 64 i) := by
  constructor
  · intro h i hi hir
    rw [← h.outside _ fun j hj he => ?_, filled_at hir hr]
    have hval := congrArg BitVec.toNat (BitVec.add_right_inj d |>.mp he)
    rw [BitVec.toNat_ofNat, BitVec.toNat_ofNat, Nat.mod_eq_of_lt (by omega),
      Nat.mod_eq_of_lt (by omega)] at hval
    omega
  · intro h
    refine ⟨fun i hi => filled_at (by omega) hr, fun a ha => ?_⟩
    by_cases hin : ∃ i, i < r ∧ a = d + BitVec.ofNat 64 i
    · obtain ⟨i, hi, rfl⟩ := hin
      rw [filled_at hi hr, h i (Nat.le_of_not_lt fun hlt => ha i hlt rfl) hi]
    · exact filled_outside fun i hi he => hin ⟨i, hi, he⟩

/-- The functions of `common/memory.h`. -/
inductive Primitive where
  | memzero
  | memcpy
  | memcmp
  | memset
deriving DecidableEq, Repr

namespace Primitive

def label : Primitive → MemoryLabel
  | memzero => .memzero
  | memcpy => .memcpy
  | memcmp => .memcmp
  | memset => .memset

/-- The argument that counts the bytes. -/
def count (p : Primitive) (s : State) : Nat :=
  match p with
  | memzero => (s.x 1).toNat
  | _ => (s.x 2).toNat

/-- What a call from `s` that returns with `t` is to do. -/
def Contract (p : Primitive) (s t : State) : Prop :=
  match p with
  | memzero => SetsExactly s.memory t.memory (s.x 0) (p.count s) fun _ => 0
  | memcpy => SetsExactly s.memory t.memory (s.x 0) (p.count s) fun x => s.memory (s.x 1 + x)
  | memcmp => (t.w 0 = 0 ↔ Agree s.memory (s.x 0) (s.x 1) (p.count s)) ∧ t.memory = s.memory
  | memset => SetsExactly s.memory t.memory (s.x 0) (p.count s) fun _ => (s.w 1).setWidth 8

/-- The call returns and keeps its contract. -/
def Meets (p : Primitive) (s : State) : Prop :=
  Ends memoryText (p.Contract s) (behind memoryText p.label) s

/-- The regions of a copy do not overlap. -/
def Apart (s : State) (n : Nat) : Prop :=
  ∀ i < n, ∀ j < n, s.x 0 + BitVec.ofNat 64 i ≠ s.x 1 + BitVec.ofNat 64 j

/-- The count of `memzero`, rounded up. -/
def rounded (n : Nat) : Nat := 8 * ((n - 1) / 8 + 1)

/-- The bytes that are set without being asked for hold already what they are set to. -/
def Spares (p : Primitive) (s : State) : Prop :=
  match p with
  | memzero =>
      ∀ i, p.count s ≤ i → i < rounded (p.count s) → s.memory (s.x 0 + BitVec.ofNat 64 i) = 0
  | memcpy => p.count s = 0 → s.memory (s.x 0) = s.memory (s.x 1)
  | memcmp | memset => True

theorem meets_memzero (hn : memzero.count s < 2 ^ 31) : memzero.Meets s ↔ memzero.Spares s := by
  have hn' : (s.x 1).toNat < 2 ^ 31 := hn
  have hle : (s.x 1).toNat ≤ rounded (s.x 1).toNat := by
    unfold rounded
    omega
  have hend : Ends memoryText
      (fun t => t.memory = filled s.memory (s.x 0) (rounded (s.x 1).toNat) fun _ => 0)
      (behind memoryText .memzero) s :=
    ends_memzero (by omega) hle hn'
  have hvalue := hend.value (P := fun m => SetsExactly s.memory m (s.x 0) (s.x 1).toNat fun _ => 0)
  exact hvalue.trans (setsExactly_filled hle (by unfold rounded; omega))

theorem meets_memcpy (hn : memcpy.count s < 2 ^ 31) (hapart : Apart s (memcpy.count s)) :
    memcpy.Meets s ↔ memcpy.Spares s := by
  obtain ⟨k, hk⟩ : ∃ k, max 1 (s.x 2).toNat = k + 1 := ⟨max 1 (s.x 2).toNat - 1, by omega⟩
  have hn' : (s.x 2).toNat < 2 ^ 31 := hn
  have hw : (s.w 2).toNat = (s.x 2).toNat := by
    rw [State.w, BitVec.toNat_setWidth, Nat.mod_eq_of_lt (by omega)]
  have hunspoiled : Unspoiled (s.x 0) (s.x 1) (k + 1) := by
    intro i j hij hj
    have hcount : j < (s.x 2).toNat := by omega
    exact hapart i (Nat.lt_trans hij hcount) j hcount
  have hend := ends_memcpy (by rw [hw]; exact hk) (by omega) hunspoiled
  have hvalue := hend.value (P := fun m =>
    SetsExactly s.memory m (s.x 0) (s.x 2).toNat fun x => s.memory (s.x 1 + x))
  refine (hvalue.trans (setsExactly_filled (by omega) (by omega))).trans ?_
  constructor
  · intro h hzero
    have hfirst := h 0 (Nat.le_of_eq hzero) (Nat.succ_pos k)
    rwa [BitVec.add_zero, BitVec.add_zero] at hfirst
  · intro h i hi hik
    obtain rfl : i = 0 := by omega
    rw [BitVec.add_zero, BitVec.add_zero]
    exact h (Nat.le_zero.mp hi)

theorem meets_memcmp (s : State) : memcmp.Meets s := ends_memcmp rfl

theorem meets_memset (s : State) : memset.Meets s := by
  refine (ends_memset (s := s) rfl).imp fun t ht => ?_
  change SetsExactly _ t.memory _ _ _
  rw [ht]
  exact (setsExactly_filled (Nat.le_refl _) (Nat.le_of_lt (s.x 2).isLt)).mpr fun i hi hlt => by omega

theorem meets_iff (p : Primitive) (hn : p.count s < 2 ^ 31)
    (hapart : p = memcpy → Apart s (p.count s)) : p.Meets s ↔ p.Spares s := by
  cases p with
  | memzero => exact meets_memzero hn
  | memcpy => exact meets_memcpy hn (hapart rfl)
  | memcmp => exact iff_of_true (meets_memcmp s) trivial
  | memset => exact iff_of_true (meets_memset s) trivial

/-! ## Three calls -/

/-- The arguments of a call, in a memory where each byte is the low byte of its address. -/
def calling (x0 x1 x2 : BitVec 64) : State where
  x r := if r = 0 then x0 else if r = 1 then x1 else if r = 2 then x2 else 0
  negative := false
  zero := false
  overflow := false
  memory a := a.setWidth 8

theorem meets_eightBytes :
    memcpy.Meets (calling 16 32 8) ∧ memzero.Meets (calling 16 8 0) := by
  have hapart : Apart (calling 16 32 8) (memcpy.count (calling 16 32 8)) := by
    change ∀ i < 8, ∀ j < 8, (16 : BitVec 64) + BitVec.ofNat 64 i ≠ 32 + BitVec.ofNat 64 j
    decide
  refine ⟨(meets_iff memcpy (by decide) fun _ => hapart).mpr fun hzero => absurd hzero (by decide),
    (meets_iff memzero (by decide) nofun).mpr fun i hle hlt => ?_⟩
  have hrounded : rounded (memzero.count (calling 16 8 0)) = 8 := by decide
  have hcount : memzero.count (calling 16 8 0) = 8 := by decide
  omega

/-- Copy no byte, and clear four. -/
theorem not_meets_boundaries :
    ¬ memcpy.Meets (calling 16 32 0) ∧ ¬ memzero.Meets (calling 16 4 0) := by
  have hapart : Apart (calling 16 32 0) (memcpy.count (calling 16 32 0)) :=
    fun i hi => absurd hi (Nat.not_lt_zero i)
  constructor
  · rw [meets_memcpy (by decide) hapart]
    intro h
    exact absurd (h rfl) (by decide)
  · rw [meets_memzero (by decide)]
    intro h
    exact absurd (h 4 (by decide) (by decide)) (by decide)

end Primitive

end Demoos
