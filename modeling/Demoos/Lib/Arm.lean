import Mathlib.Data.BitVec
import Mathlib.Logic.Function.Basic

/-!
# A subset of AArch64

Assembly text is a list of labels and instructions, and what is left to run of it is one of its
suffixes: a branch goes on behind a label, and a label is fallen through.  A call ends at `ret`.

The flags are those that the condition `gt` reads.
-/

namespace Arm

open Function (update update_self update_of_ne)

abbrev Address := BitVec 64
abbrev Memory := Address → BitVec 8

/-- The instructions, with the labels `L`.  `x` and `w` registers are numbered; the offset behind a
bracket is added to the address register after the access. -/
inductive Instr (L : Type) where
  -- `str xzr, [xn], #post`
  | strXzr (n : Nat) (post : BitVec 64)
  -- `ldrb wt, [xn], #post`
  | ldrb (t n : Nat) (post : BitVec 64)
  -- `strb wt, [xn], #post`
  | strb (t n : Nat) (post : BitVec 64)
  | addX (d n : Nat) (imm : BitVec 64)
  | subX (d n : Nat) (imm : BitVec 64)
  | subsX (d n : Nat) (imm : BitVec 64)
  | subsW (d n : Nat) (imm : BitVec 32)
  -- `subs wd, wn, wm`
  | subsWReg (d n m : Nat)
  | movW (d : Nat) (imm : BitVec 32)
  -- `mov wd, wm`
  | movWReg (d m : Nat)
  | b (l : L)
  | bgt (l : L)
  | cbzX (t : Nat) (l : L)
  | cbnzX (t : Nat) (l : L)
  | cbnzW (t : Nat) (l : L)
  | ret
deriving DecidableEq

inductive Line (L : Type) where
  | label (l : L)
  | instr (i : Instr L)
deriving DecidableEq

structure State where
  x : Nat → BitVec 64
  -- the flags N, Z and V
  negative : Bool
  zero : Bool
  overflow : Bool
  memory : Memory

namespace State

def w (s : State) (t : Nat) : BitVec 32 := (s.x t).setWidth 32

def setX (s : State) (d : Nat) (v : BitVec 64) : State := { s with x := update s.x d v }

/-- The upper half of the register is cleared. -/
def setW (s : State) (d : Nat) (v : BitVec 32) : State := s.setX d (v.setWidth 64)

def setMemory (s : State) (m : Memory) : State := { s with memory := m }

/-- The flags of the difference `u - v`. -/
def compare {k : Nat} (s : State) (u v : BitVec k) : State :=
  { s with
    negative := (u - v).msb
    zero := u - v == 0
    overflow := u.ssubOverflow v }

def gt (s : State) : Bool := !s.zero && s.negative == s.overflow

section Projections

variable (s : State) (d t : Nat) (v : BitVec 64) (y : BitVec 32)

@[simp] theorem memory_setX : (s.setX d v).memory = s.memory := rfl

@[simp] theorem memory_setW : (s.setW d y).memory = s.memory := rfl

@[simp] theorem gt_setX : (s.setX d v).gt = s.gt := rfl

@[simp] theorem gt_setW : (s.setW d y).gt = s.gt := rfl

@[simp] theorem x_setX_self : (s.setX d v).x d = v := update_self ..

@[simp] theorem x_setX_of_ne (h : t ≠ d) : (s.setX d v).x t = s.x t := update_of_ne h ..

@[simp] theorem x_setW_of_ne (h : t ≠ d) : (s.setW d y).x t = s.x t := update_of_ne h ..

@[simp] theorem w_setW_self : (s.setW d y).w d = y := by
  rw [w, setW, x_setX_self, BitVec.setWidth_setWidth_of_le _ (by decide), BitVec.setWidth_eq]

@[simp] theorem w_setX_of_ne (h : t ≠ d) : (s.setX d v).w t = s.w t := by
  rw [w, x_setX_of_ne s d t v h, w]

@[simp] theorem w_setW_of_ne (h : t ≠ d) : (s.setW d y).w t = s.w t :=
  w_setX_of_ne s d t _ h

@[simp] theorem memory_setMemory (m : Memory) : (s.setMemory m).memory = m := rfl

@[simp] theorem x_setMemory (m : Memory) : (s.setMemory m).x = s.x := rfl

@[simp] theorem w_setMemory (m : Memory) : (s.setMemory m).w = s.w := rfl

@[simp] theorem memory_compare {k : Nat} (u v : BitVec k) : (s.compare u v).memory = s.memory := rfl

@[simp] theorem x_compare {k : Nat} (u v : BitVec k) : (s.compare u v).x = s.x := rfl

@[simp] theorem w_compare {k : Nat} (u v : BitVec k) : (s.compare u v).w = s.w := rfl

end Projections

end State

/-- The memory `m` with `n` bytes from the address `d` on, the byte at the offset `x` being `f x`. -/
def filled (m : Memory) (d : Address) (n : Nat) (f : BitVec 64 → BitVec 8) : Memory :=
  fun a => if (a - d).toNat < n then f (a - d) else m a

variable {L : Type}

/-- What an instruction does to registers, flags and memory. -/
def Instr.exec (i : Instr L) (s : State) : State :=
  match i with
  | strXzr n post => (s.setMemory (filled s.memory (s.x n) 8 fun _ => 0)).setX n (s.x n + post)
  | ldrb t n post =>
      (s.setX n (s.x n + post)).setW t ((s.memory (s.x n)).setWidth 32)
  | strb t n post =>
      (s.setMemory (update s.memory (s.x n) ((s.w t).setWidth 8))).setX n (s.x n + post)
  | addX d n imm => s.setX d (s.x n + imm)
  | subX d n imm => s.setX d (s.x n - imm)
  | subsX d n imm => (s.compare (s.x n) imm).setX d (s.x n - imm)
  | subsW d n imm => (s.compare (s.w n) imm).setW d (s.w n - imm)
  | subsWReg d n m => (s.compare (s.w n) (s.w m)).setW d (s.w n - s.w m)
  | movW d imm => s.setW d imm
  | movWReg d m => s.setW d (s.w m)
  | _ => s

/-- The label that an instruction goes to. -/
def Instr.target (i : Instr L) (s : State) : Option L :=
  match i with
  | b l => some l
  | bgt l => if s.gt then some l else none
  | cbzX t l => if s.x t = 0 then some l else none
  | cbnzX t l => if s.x t = 0 then none else some l
  | cbnzW t l => if s.w t = 0 then none else some l
  | _ => none

variable [DecidableEq L]

/-- The text behind a label. -/
def behind (code : List (Line L)) (l : L) : List (Line L) :=
  (code.dropWhile (· ≠ .label l)).tail

/-- Run what is left of the text. -/
def run (code : List (Line L)) : Nat → List (Line L) → State → Option State
  | 0, _, _ => none
  | _ + 1, [], _ => none
  | fuel + 1, .label _ :: rest, s => run code fuel rest s
  | _ + 1, .instr .ret :: _, s => some s
  | fuel + 1, .instr i :: rest, s =>
      match i.target s with
      | some l => run code fuel (behind code l) (i.exec s)
      | none => run code fuel rest (i.exec s)

/-- Run from `s`, the text returns, and `Q` holds then. -/
def Ends (code : List (Line L)) (Q : State → Prop) (rest : List (Line L)) (s : State) : Prop :=
  ∃ fuel t, run code fuel rest s = some t ∧ Q t

/-! ## Rules -/

section Rules

variable {code rest : List (Line L)} {Q R : State → Prop} {i : Instr L} {l : L} {s t u : State}

theorem ends_ret : Ends code Q (.instr .ret :: rest) s ↔ Q s := by
  constructor
  · rintro ⟨fuel, t, hrun, ht⟩
    cases fuel with
    | zero => cases hrun
    | succ fuel =>
        obtain rfl := Option.some.inj hrun
        exact ht
  · intro hs
    exact ⟨1, s, rfl, hs⟩

theorem ends_label : Ends code Q (.label l :: rest) s ↔ Ends code Q rest s := by
  constructor
  · rintro ⟨fuel, t, hrun, ht⟩
    cases fuel with
    | zero => cases hrun
    | succ fuel => exact ⟨fuel, t, hrun, ht⟩
  · rintro ⟨fuel, t, hrun, ht⟩
    exact ⟨fuel + 1, t, hrun, ht⟩

/-- An instruction goes on behind it, or behind its label. -/
theorem run_succ (hret : i ≠ .ret) (fuel : Nat) :
    run code (fuel + 1) (.instr i :: rest) s =
      run code fuel (((i.target s).map (behind code)).getD rest) (i.exec s) := by
  have hstep : run code (fuel + 1) (.instr i :: rest) s =
      match i.target s with
      | some l => run code fuel (behind code l) (i.exec s)
      | none => run code fuel rest (i.exec s) := by
    cases i <;> first | rfl | exact absurd rfl hret
  rw [hstep]
  cases i.target s <;> rfl

theorem ends_instr (hret : i ≠ .ret) :
    Ends code Q (.instr i :: rest) s ↔
      Ends code Q (((i.target s).map (behind code)).getD rest) (i.exec s) := by
  constructor
  · rintro ⟨fuel, t, hrun, ht⟩
    cases fuel with
    | zero => cases hrun
    | succ fuel => exact ⟨fuel, t, (run_succ hret fuel).symm.trans hrun, ht⟩
  · rintro ⟨fuel, t, hrun, ht⟩
    exact ⟨fuel + 1, t, (run_succ hret fuel).trans hrun, ht⟩

theorem ends_next (hret : i ≠ .ret) (htarget : i.target s = none) :
    Ends code Q (.instr i :: rest) s ↔ Ends code Q rest (i.exec s) := by
  rw [ends_instr hret, htarget]
  rfl

theorem ends_jump (htarget : i.target s = some l) :
    Ends code Q (.instr i :: rest) s ↔ Ends code Q (behind code l) (i.exec s) := by
  have hret : i ≠ .ret := by
    rintro rfl
    cases htarget
  rw [ends_instr hret, htarget]
  rfl

theorem ends_b : Ends code Q (.instr (.b l) :: rest) s ↔ Ends code Q (behind code l) s :=
  ends_jump rfl

theorem ends_bgt :
    Ends code Q (.instr (.bgt l) :: rest) s ↔
      if s.gt then Ends code Q (behind code l) s else Ends code Q rest s := by
  split
  next h => exact ends_jump (if_pos h)
  next h => exact ends_next (by simp) (if_neg h)

theorem ends_cbzX {n : Nat} :
    Ends code Q (.instr (.cbzX n l) :: rest) s ↔
      if s.x n = 0 then Ends code Q (behind code l) s else Ends code Q rest s := by
  split
  next h => exact ends_jump (if_pos h)
  next h => exact ends_next (by simp) (if_neg h)

theorem ends_cbnzX {n : Nat} :
    Ends code Q (.instr (.cbnzX n l) :: rest) s ↔
      if s.x n = 0 then Ends code Q rest s else Ends code Q (behind code l) s := by
  split
  next h => exact ends_next (by simp) (if_pos h)
  next h => exact ends_jump (if_neg h)

theorem ends_cbnzW {n : Nat} :
    Ends code Q (.instr (.cbnzW n l) :: rest) s ↔
      if s.w n = 0 then Ends code Q rest s else Ends code Q (behind code l) s := by
  split
  next h => exact ends_next (by simp) (if_pos h)
  next h => exact ends_jump (if_neg h)

theorem run_mono {fuel fuel' : Nat} (h : run code fuel rest s = some t) (hle : fuel ≤ fuel') :
    run code fuel' rest s = some t := by
  induction fuel generalizing fuel' rest s with
  | zero => cases h
  | succ fuel ih =>
      obtain ⟨k, rfl⟩ : ∃ k, fuel' = k + 1 := ⟨fuel' - 1, by omega⟩
      have hle' : fuel ≤ k := by omega
      cases rest with
      | nil => cases h
      | cons line rest =>
          cases line with
          | label l =>
              change run code fuel rest s = some t at h
              change run code k rest s = some t
              exact ih h hle'
          | instr i =>
              by_cases hret : i = .ret
              · subst hret
                exact h
              · rw [run_succ hret] at h ⊢
                exact ih h hle'

theorem Ends.imp (h : Ends code Q rest s) (hQ : ∀ t, Q t → R t) : Ends code R rest s := by
  obtain ⟨fuel, t, hrun, ht⟩ := h
  exact ⟨fuel, t, hrun, hQ t ht⟩

/-- A run ends in one state only. -/
theorem Ends.value {α : Type} {f : State → α} {v : α} {P : α → Prop}
    (h : Ends code (fun t => f t = v) rest s) : Ends code (fun t => P (f t)) rest s ↔ P v := by
  obtain ⟨fuel, t, hrun, rfl⟩ := h
  constructor
  · rintro ⟨fuel', t', hrun', ht'⟩
    have hfirst := run_mono hrun (Nat.le_max_left fuel fuel')
    have hsecond := run_mono hrun' (Nat.le_max_right fuel fuel')
    obtain rfl := Option.some.inj (hfirst.symm.trans hsecond)
    exact ht'
  · intro ht
    exact ⟨fuel, t, hrun, ht⟩

end Rules

/-! ## Bytes from an address on -/

section Filled

variable {m : Memory} {d a : Address} {n k : Nat} {f g : BitVec 64 → BitVec 8}

theorem filled_zero (m : Memory) (d : Address) (f : BitVec 64 → BitVec 8) : filled m d 0 f = m :=
  funext fun _ => if_neg (Nat.not_lt_zero _)

theorem filled_one (m : Memory) (d : Address) (f : BitVec 64 → BitVec 8) :
    filled m d 1 f = update m d (f 0) := by
  funext a
  unfold filled
  by_cases ha : a = d
  · subst ha
    rw [BitVec.sub_self, update_self, if_pos (by decide)]
    rfl
  · have hne : (a - d).toNat ≠ 0 := by
      intro he
      have hzero : a - d = 0 := BitVec.eq_of_toNat_eq he
      exact ha (by rw [← BitVec.sub_add_cancel a d, hzero]; exact BitVec.zero_add d)
    rw [update_of_ne ha, if_neg (by omega)]

/-- The first bytes, and then the others. -/
theorem filled_append (hn : n + k ≤ 2 ^ 64)
    (hg : ∀ x : BitVec 64, x.toNat < k → g x = f (x + BitVec.ofNat 64 n)) :
    filled (filled m d n f) (d + BitVec.ofNat 64 n) k g = filled m d (n + k) f := by
  funext a
  unfold filled
  rw [← BitVec.sub_sub]
  generalize hx : a - d = x
  have hlt : x.toNat < 2 ^ 64 := x.isLt
  have hoff : (x - BitVec.ofNat 64 n).toNat = (2 ^ 64 - n % 2 ^ 64 + x.toNat) % 2 ^ 64 := by
    rw [BitVec.toNat_sub, BitVec.toNat_ofNat]
  by_cases hin : x.toNat < n
  · rw [if_neg (by omega), if_pos hin, if_pos (by omega)]
  · have hsub : (x - BitVec.ofNat 64 n).toNat = x.toNat - n := by omega
    rw [hsub, if_neg hin]
    by_cases hk : x.toNat < n + k
    · rw [if_pos (by omega), if_pos hk, hg _ (by omega), BitVec.sub_add_cancel]
    · rw [if_neg (by omega), if_neg hk]

theorem filled_at {i : Nat} (hi : i < n) (hn : n ≤ 2 ^ 64) :
    filled m d n f (d + BitVec.ofNat 64 i) = f (BitVec.ofNat 64 i) := by
  unfold filled
  rw [BitVec.add_comm, BitVec.add_sub_cancel, BitVec.toNat_ofNat, Nat.mod_eq_of_lt (by omega),
    if_pos hi]

theorem filled_outside (h : ∀ i < n, a ≠ d + BitVec.ofNat 64 i) : filled m d n f a = m a := by
  refine if_neg fun hlt => h _ hlt ?_
  rw [BitVec.ofNat_toNat, BitVec.setWidth_eq, BitVec.add_comm, BitVec.sub_add_cancel]

end Filled

/-! ## Counters -/

/-- A counter that is not zero yet. -/
theorem toNat_sub_one {k n : Nat} {v : BitVec k} (h : v.toNat = n + 1) : (v - 1).toNat = n := by
  have hpow : 1 < 2 ^ k := by
    have hlt := v.isLt
    omega
  have hone : (1 : BitVec k).toNat = 1 := (BitVec.toNat_ofNat 1 k).trans (Nat.mod_eq_of_lt hpow)
  have hle : 1 ≤ v := by
    rw [BitVec.le_def, hone]
    omega
  rw [BitVec.toNat_sub_of_le hle, h, hone, Nat.add_sub_cancel]

/-! ## Flags -/

/-- The difference of two numbers that are not negative does not overflow. -/
theorem gt_compare {k : Nat} {u v : BitVec k} (s : State) (hu : u.msb = false)
    (hv : v.msb = false) : (s.compare u v).gt = decide (v.toNat < u.toNat) := by
  have hover : u.ssubOverflow v = false := by
    rw [BitVec.ssubOverflow_eq, hu, hv]
    simp
  have hdiff : (u - v).toInt = u.toNat - v.toNat := by
    rw [BitVec.toInt_sub_of_not_ssubOverflow (by rw [hover]; exact Bool.false_ne_true),
      BitVec.toInt_eq_toNat_of_msb hu, BitVec.toInt_eq_toNat_of_msb hv]
  have hzero : (u - v == 0) = decide (u.toNat = v.toNat) := by
    rw [beq_eq_decide, decide_eq_decide, ← BitVec.toInt_inj, hdiff, BitVec.ofNat_eq_ofNat,
      BitVec.toInt_zero]
    omega
  have hneg : (u - v).msb = decide (u.toNat < v.toNat) := by
    rw [BitVec.msb_eq_toInt, hdiff, decide_eq_decide]
    omega
  change (!(u - v == 0) && (u - v).msb == u.ssubOverflow v) = _
  rw [hover, hzero, hneg]
  rcases Nat.lt_trichotomy v.toNat u.toNat with hlt | he | hgt
  · simp [hlt, Nat.ne_of_gt hlt, Nat.not_lt_of_gt hlt]
  · simp [he]
  · simp [hgt, Nat.not_lt_of_gt hgt]

end Arm
