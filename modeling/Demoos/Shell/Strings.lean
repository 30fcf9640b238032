import Demoos.Lib.Buffer
import Demoos.Shell.NormalizePath

/-!
# The functions of `string.c`

The loops of `common/string.c` over arrays.  A function has no result if it leaves one of them.
-/

namespace Demoos

namespace Shell

open Buffer
open CString (Stands)
open Function (update update_self update_of_ne)

variable {k m n : Nat}

/-! ## The source -/

/-- The characters that end a line: `'\0'`, `'\r'` and `'\n'`. -/
def IsEnd (c : CChar) : Prop := c = 0 ∨ c = 13 ∨ c = 10

instance : DecidablePred IsEnd := fun _ => inferInstanceAs (Decidable (_ ∨ _ ∨ _))

def space : CChar := 32

def strlen (str : Buffer CChar n) : Option Nat := str.skip (· = 0) 0

/-- The loop that copies `src`, and the store of its end. -/
def copyString (dest : Buffer CChar n) (j : Nat) (src : Buffer CChar m) : Option (Buffer CChar n) :=
  do
    let (_, dest, j) ← src.copyUntil (· = 0) 0 dest j
    dest.store j 0

def strcpy (dest : Buffer CChar n) (src : Buffer CChar m) : Option (Buffer CChar n) :=
  copyString dest 0 src

def strcat (dest : Buffer CChar n) (src : Buffer CChar m) : Option (Buffer CChar n) := do
  copyString dest (← strlen dest) src

/-- The loop of `strsplit`, from the index `i` of `src` and the index `j` of `dest1` on. -/
def splitFrom (src : Buffer CChar k) (delimiter : CChar) :
    Nat → Nat → Buffer CChar m → Nat → Buffer CChar n → Option (Buffer CChar m × Buffer CChar n)
  | 0, _, _, _, _ => none
  | left + 1, i, dest1, j, dest2 =>
      if IsEnd (src.byte i) then some (dest1, dest2)
      else if src.byte i = delimiter then do
        let dest1 ← dest1.store j 0
        let (_, dest2, _) ← src.copyUntil IsEnd (i + 1) dest2 0
        -- the loop inside stops at a character that ends this one
        some (dest1, dest2)
      else do
        let dest1 ← dest1.store j (src.byte i)
        splitFrom src delimiter left (i + 1) dest1 (j + 1) dest2

def strsplit (src : Buffer CChar k) (delimiter : CChar) (dest1 : Buffer CChar m)
    (dest2 : Buffer CChar n) : Option (Buffer CChar m × Buffer CChar n) :=
  splitFrom src delimiter k 0 dest1 0 dest2

/-! ## Strings -/

section Strings

variable {dest b : Buffer CChar n} {src : Buffer CChar m} {xs ys : List CChar} {j : Nat}

theorem strlen_eq (h : Holds b xs) : strlen b = some xs.length := by
  rw [strlen, h.run_zero.skip_eq, Nat.zero_add]

theorem copyString_eq (hs : Holds src ys) (hj : j ≤ n) :
    copyString dest j src =
      if j + ys.length < n then some ⟨update (dest.put j ys).byte (j + ys.length) 0⟩ else none := by
  rw [copyString, hs.run_zero.copyUntil_eq hj]
  by_cases hin : j + ys.length ≤ n
  · rw [if_pos hin]
    rfl
  · rw [if_neg hin, if_neg (by omega)]
    rfl

theorem holds_put (hd : ∀ i (hi : i < xs.length), dest.byte i = xs[i])
    (hx : ∀ x ∈ xs ++ ys, x ≠ 0) (hin : xs.length + ys.length < n) :
    Holds (⟨update (dest.put xs.length ys).byte (xs.length + ys.length) 0⟩ : Buffer CChar n)
      (xs ++ ys) where
  stands := by
    refine ⟨fun i hi => ?_, ?_, hx⟩
    · have hi' := hi
      rw [List.length_append] at hi'
      dsimp only [put]
      rw [update_of_ne (by omega)]
      by_cases hlt : i < xs.length
      · rw [if_neg (by omega), hd i hlt, List.getElem_append_left hlt]
      · rw [if_pos (by omega), List.getElem_append_right (by omega),
          List.getElem?_eq_getElem (by omega)]
        rfl
    · rw [List.length_append]
      exact update_self ..
  inside := by
    rw [List.length_append]
    exact hin

theorem strcat_yields (hd : Holds dest xs) (hs : Holds src ys) :
    Yields (strcat dest src) (xs ++ ys) := by
  have hrun : strcat dest src = copyString dest xs.length src := by
    rw [strcat, strlen_eq hd]
    rfl
  rw [hrun, copyString_eq hs (Nat.le_of_lt hd.inside), Yields, List.length_append]
  split
  next hin =>
    refine ⟨_, rfl, holds_put hd.stands.text (fun x hx => ?_) hin⟩
    rcases List.mem_append.mp hx with hx | hx
    · exact hd.stands.proper x hx
    · exact hs.stands.proper x hx
  next => rfl

theorem strcpy_yields (dest : Buffer CChar n) (hs : Holds src ys) : Yields (strcpy dest src) ys := by
  rw [strcpy, copyString_eq hs (Nat.zero_le n), Yields, Nat.zero_add]
  split
  next hin =>
    have hput : Holds (⟨update (dest.put [].length ys).byte ([].length + ys.length) 0⟩ :
        Buffer CChar n) ([] ++ ys) :=
      holds_put (fun i hi => absurd hi (Nat.not_lt_zero i)) hs.stands.proper (by simpa using hin)
    refine ⟨_, rfl, ?_⟩
    simpa using hput
  next => rfl

end Strings

/-! ## Splits -/

/-- The part of a line in front of the first delimiter. -/
def first (d : CChar) (line : List CChar) : List CChar := line.takeWhile (· ≠ d)

/-- The part behind it. -/
def second (d : CChar) (line : List CChar) : List CChar := (line.dropWhile (· ≠ d)).tail

section Split

variable {src : Buffer CChar k} {d c : CChar} {line xs : List CChar} {i : Nat}

theorem first_cons_self (d : CChar) (line : List CChar) : first d (d :: line) = [] := by
  simp [first]

theorem second_cons_self (d : CChar) (line : List CChar) : second d (d :: line) = line := by
  simp [second]

theorem first_cons (hc : c ≠ d) : first d (c :: line) = c :: first d line := by
  simp [first, hc]

theorem second_cons (hc : c ≠ d) : second d (c :: line) = second d line := by
  simp [second, hc]

theorem splitFrom_eq {pre : List CChar} (h : Run IsEnd src i line) (hm : pre.length + line.length < m)
    (hn : line.length < n) :
    splitFrom src d (k - i) i (ofList pre : Buffer CChar m) pre.length (blank : Buffer CChar n) =
      some (ofList (pre ++ first d line), ofList (second d line)) := by
  obtain ⟨left, hleft, hnext⟩ := h.left
  induction line generalizing pre i left with
  | nil =>
      have hend : IsEnd (src.byte i) := h.ended
      rw [hleft, splitFrom, if_pos hend, first, List.takeWhile_nil, List.append_nil]
      rfl
  | cons c line ih =>
      rw [List.length_cons] at hm hn
      rw [hleft, splitFrom, if_neg h.not_stop, h.head]
      by_cases hc : c = d
      · subst hc
        rw [if_pos rfl, first_cons_self, second_cons_self, List.append_nil, store_ofList (by omega),
          h.tail.copyUntil_blank (Nat.le_of_succ_le (by omega))]
        rfl
      · obtain ⟨left', hleft', hnext'⟩ := h.tail.left
        have hm' : (pre ++ [c]).length + line.length < m := by
          rw [List.length_append, List.length_singleton]
          omega
        have hrest := ih h.tail hm' (by omega) left' hleft' hnext'
        rw [List.length_append, List.append_assoc] at hrest
        rw [if_neg hc, store_concat c (by omega), first_cons hc, second_cons hc, ← hnext]
        exact hrest

/-- The two parts of the line at the start of `src`. -/
theorem strsplit_eq (h : Run IsEnd src 0 line) (hm : line.length < m) (hn : line.length < n) :
    strsplit src d (blank : Buffer CChar m) (blank : Buffer CChar n) =
      some (ofList (first d line), ofList (second d line)) := by
  have hm' : ([] : List CChar).length + line.length < m := by simpa using hm
  exact splitFrom_eq h hm' hn

/-- Nothing of a line is lost. -/
def Splits (d : CChar) (line a b : List CChar) : Prop :=
  (d ∉ line ∧ a = line ∧ b = []) ∨ (d ∉ a ∧ a ++ d :: b = line)

theorem splits_first_second (d : CChar) (line : List CChar) :
    Splits d line (first d line) (second d line) := by
  induction line with
  | nil => exact .inl ⟨List.not_mem_nil, rfl, rfl⟩
  | cons c line ih =>
      by_cases hc : c = d
      · subst hc
        rw [first_cons_self, second_cons_self]
        exact .inr ⟨List.not_mem_nil, rfl⟩
      · rw [first_cons hc, second_cons hc]
        rcases ih with ⟨hd, ha, hb⟩ | ⟨hd, hline⟩
        · exact .inl ⟨List.not_mem_cons_of_ne_of_not_mem (Ne.symm hc) hd, by rw [ha], hb⟩
        · refine .inr ⟨List.not_mem_cons_of_ne_of_not_mem (Ne.symm hc) hd, ?_⟩
          rw [List.cons_append, hline]

theorem first_sublist (d : CChar) (line : List CChar) : (first d line).Sublist line :=
  List.takeWhile_sublist _

theorem second_sublist (d : CChar) (line : List CChar) : (second d line).Sublist line :=
  (List.tail_sublist _).trans (List.dropWhile_sublist _)

theorem length_second_lt (h : line ≠ []) : (second d line).length < line.length := by
  rcases splits_first_second d line with ⟨_, _, hsecond⟩ | ⟨_, hline⟩
  · rw [hsecond]
    exact List.length_pos_iff.mpr h
  · have hsum := congrArg List.length hline
    rw [List.length_append, List.length_cons] at hsum
    omega

end Split

end Shell

end Demoos
