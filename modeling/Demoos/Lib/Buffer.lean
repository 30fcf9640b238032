import Demoos.Lib.CString

/-!
# Arrays of characters

An array of `n` characters with checked accesses: there is no result if an index is outside.  A
loop reads an array up to a character that stops it, and the number of characters that are left
bounds the loop.

`Run` says what such a loop reads, and `Holds` that a string and its end are in the array.
-/

open Function (update update_self update_of_ne)

/-- An array.  Nothing reads the characters from the index `n` on. -/
structure Buffer (α : Type*) (n : Nat) where
  byte : Nat → α

namespace Buffer

open CString (Stands)

variable {α : Type*} {m n : Nat}

/-! ## Accesses -/

def load (b : Buffer α n) (i : Int) : Option α :=
  if 0 ≤ i ∧ i < n then some (b.byte i.toNat) else none

def store (b : Buffer α n) (i : Nat) (c : α) : Option (Buffer α n) :=
  if i < n then some ⟨update b.byte i c⟩ else none

/-- The first `k` characters of another array. -/
def copy (dest : Buffer α n) (src : Buffer α m) (k : Nat) : Option (Buffer α n) :=
  if k ≤ n ∧ k ≤ m then some ⟨fun i => if i < k then src.byte i else dest.byte i⟩ else none

section Loops

variable (stop : α → Prop) [DecidablePred stop]

def skipFrom (b : Buffer α n) : Nat → Nat → Option Nat
  | 0, _ => none
  | left + 1, i => if stop (b.byte i) then some i else skipFrom b left (i + 1)

/-- The index of the first stop from `i` on. -/
def skip (b : Buffer α n) (i : Nat) : Option Nat := skipFrom stop b (n - i) i

def copyFrom (src : Buffer α m) : Nat → Nat → Buffer α n → Nat → Option (Nat × Buffer α n × Nat)
  | 0, _, _, _ => none
  | left + 1, i, dest, j =>
      if stop (src.byte i) then some (i, dest, j)
      else (dest.store j (src.byte i)).bind fun dest => copyFrom src left (i + 1) dest (j + 1)

/-- Copy from the index `i` to the index `j` up to the first stop, with the indexes reached. -/
def copyUntil (src : Buffer α m) (i : Nat) (dest : Buffer α n) (j : Nat) :
    Option (Nat × Buffer α n × Nat) :=
  copyFrom stop src (m - i) i dest j

end Loops

/-! ## What the loops read -/

/-- The text `xs` stands at the index `i`, with the first stop behind it. -/
structure Run (stop : α → Prop) (b : Buffer α n) (i : Nat) (xs : List α) : Prop where
  text : ∀ k (hk : k < xs.length), b.byte (i + k) = xs[k]
  free : ∀ x ∈ xs, ¬ stop x
  ended : stop (b.byte (i + xs.length))
  inside : i + xs.length < n

/-- The array with `xs` at the index `j`. -/
def put (b : Buffer α n) (j : Nat) (xs : List α) : Buffer α n where
  byte k := if j ≤ k then xs[k - j]?.getD (b.byte k) else b.byte k

section Run

variable {stop : α → Prop} {src : Buffer α m} {dest : Buffer α n} {i j : Nat} {x : α} {xs : List α}

theorem put_nil (dest : Buffer α n) (j : Nat) : dest.put j [] = dest := by
  simp [put]

theorem put_cons (dest : Buffer α n) (j : Nat) (x : α) (xs : List α) :
    dest.put j (x :: xs) = put ⟨update dest.byte j x⟩ (j + 1) xs := by
  refine congrArg Buffer.mk (funext fun k => ?_)
  dsimp only
  rcases Nat.lt_trichotomy k j with hlt | rfl | hgt
  · rw [if_neg (by omega), if_neg (by omega), update_of_ne (by omega)]
  · rw [if_pos (Nat.le_refl k), if_neg (by omega), Nat.sub_self, update_self]
    rfl
  · obtain ⟨l, hl⟩ : ∃ l, k - j = l + 1 := ⟨k - j - 1, by omega⟩
    rw [if_pos (by omega), if_pos (by omega), update_of_ne (by omega), hl,
      List.getElem?_cons_succ, show k - (j + 1) = l by omega]

theorem Run.tail (h : Run stop src i (x :: xs)) : Run stop src (i + 1) xs where
  text k hk := by
    have hnext := h.text (k + 1) (by simpa using hk)
    rw [List.getElem_cons_succ] at hnext
    rw [← hnext]
    congr 1
    omega
  free y hy := h.free y (List.mem_cons_of_mem x hy)
  ended := by
    have hend := h.ended
    rwa [List.length_cons, Nat.add_comm xs.length, ← Nat.add_assoc] at hend
  inside := by
    have hin := h.inside
    rw [List.length_cons] at hin
    omega

theorem Run.cons (h : Run stop src (i + 1) xs) (hx : src.byte i = x) (hfree : ¬ stop x) :
    Run stop src i (x :: xs) where
  text k hk := by
    cases k with
    | zero => exact hx
    | succ k =>
        rw [List.getElem_cons_succ, ← h.text k (Nat.lt_of_succ_lt_succ hk)]
        congr 1
        omega
  free := List.forall_mem_cons.mpr ⟨hfree, h.free⟩
  ended := by
    rw [List.length_cons, Nat.add_comm xs.length, ← Nat.add_assoc]
    exact h.ended
  inside := by
    have hin := h.inside
    rw [List.length_cons]
    omega

theorem Run.head (h : Run stop src i (x :: xs)) : src.byte i = x :=
  h.text 0 (Nat.succ_pos _)

theorem Run.not_stop (h : Run stop src i (x :: xs)) : ¬ stop (src.byte i) := by
  rw [h.head]
  exact h.free x List.mem_cons_self

theorem Run.left (h : Run stop src i xs) : ∃ left, m - i = left + 1 ∧ m - (i + 1) = left := by
  have hin := h.inside
  exact ⟨m - i - 1, by omega, by omega⟩

variable [DecidablePred stop]

/-- A loop reads a part of what stands in front of a stop. -/
theorem run_takeWhile (htext : ∀ k (hk : k < xs.length), src.byte (i + k) = xs[k])
    (hend : stop (src.byte (i + xs.length))) (hin : i + xs.length < m) :
    Run stop src i (xs.takeWhile fun c => ¬ stop c) := by
  induction xs generalizing i with
  | nil => exact ⟨fun k hk => absurd hk (Nat.not_lt_zero k), by simp, hend, hin⟩
  | cons x xs ih =>
      have hx : src.byte i = x := htext 0 (Nat.succ_pos _)
      by_cases hstop : stop x
      · rw [List.takeWhile_cons_of_neg (by simpa using hstop)]
        refine ⟨fun k hk => absurd hk (Nat.not_lt_zero k), by simp, ?_, ?_⟩
        · change stop (src.byte i)
          rwa [hx]
        · rw [List.length_cons] at hin
          change i < m
          omega
      · have hlen : i + (x :: xs).length = i + 1 + xs.length := by
          rw [List.length_cons, Nat.add_assoc, Nat.add_comm 1]
        rw [hlen] at hend hin
        rw [List.takeWhile_cons_of_pos (by simpa using hstop)]
        refine (ih (fun k hk => ?_) hend hin).cons hx hstop
        have hnext := htext (k + 1) (by simpa using hk)
        rw [List.getElem_cons_succ] at hnext
        rw [← hnext]
        congr 1
        omega

theorem Run.skip_eq (h : Run stop src i xs) : skip stop src i = some (i + xs.length) := by
  unfold skip
  obtain ⟨left, hleft, hnext⟩ := h.left
  induction xs generalizing i left with
  | nil =>
      have hend : stop (src.byte i) := h.ended
      rw [hleft, skipFrom, if_pos hend]
      rfl
  | cons x xs ih =>
      obtain ⟨left', hleft', hnext'⟩ := h.tail.left
      rw [hleft, skipFrom, if_neg h.not_stop, ← hnext, ih h.tail left' hleft' hnext',
        List.length_cons, Nat.add_assoc, Nat.add_comm 1]

/-- The copy of a text fails exactly if it does not fit. -/
theorem Run.copyUntil_eq (h : Run stop src i xs) (hj : j ≤ n) :
    copyUntil stop src i dest j =
      if j + xs.length ≤ n then some (i + xs.length, dest.put j xs, j + xs.length) else none := by
  unfold copyUntil
  obtain ⟨left, hleft, hnext⟩ := h.left
  induction xs generalizing i j dest left with
  | nil =>
      have hend : stop (src.byte i) := h.ended
      rw [hleft, copyFrom, if_pos hend, put_nil]
      exact (if_pos hj).symm
  | cons x xs ih =>
      obtain ⟨left', hleft', hnext'⟩ := h.tail.left
      have hlen : j + (x :: xs).length = j + 1 + xs.length := by
        rw [List.length_cons, Nat.add_assoc, Nat.add_comm 1]
      have hlen' : i + (x :: xs).length = i + 1 + xs.length := by
        rw [List.length_cons, Nat.add_assoc, Nat.add_comm 1]
      rw [hleft, copyFrom, if_neg h.not_stop, h.head, hlen, hlen', put_cons, ← hnext]
      by_cases hin : j < n
      · rw [store, if_pos hin, Option.bind_some]
        exact ih h.tail hin left' hleft' hnext'
      · rw [store, if_neg hin, if_neg (by omega)]
        rfl

theorem copyUntil_eq_none (hi : m ≤ i) : copyUntil stop src i dest j = none := by
  rw [copyUntil, Nat.sub_eq_zero_of_le hi, copyFrom]

end Run

/-! ## Strings -/

section Strings

variable [Zero α] {b : Buffer α n} {stop : α → Prop} {i : Nat} {x : α} {xs ys : List α}

/-- A string and its end are in the array. -/
structure Holds (b : Buffer α n) (xs : List α) : Prop where
  stands : Stands b.byte xs
  inside : xs.length < n

/-- The array that holds `xs` in front of zeros. -/
def ofList (xs : List α) : Buffer α n where
  byte i := xs[i]?.getD 0

/-- An array of zeros. -/
def blank : Buffer α n := ofList []

theorem holds_ofList (hproper : ∀ x ∈ xs, x ≠ 0) (hin : xs.length < n) :
    Holds (ofList xs : Buffer α n) xs where
  stands := ⟨fun i hi => by simp [ofList, hi], by simp [ofList], hproper⟩
  inside := hin

theorem put_blank (xs : List α) : (blank : Buffer α n).put 0 xs = ofList xs := by
  simp [put, blank, ofList]

/-- A zero behind a string leaves an array of zeros as it is. -/
theorem store_ofList (hin : xs.length < n) :
    (ofList xs : Buffer α n).store xs.length 0 = some (ofList xs) := by
  rw [store, if_pos hin]
  refine congrArg (fun f => some (Buffer.mk f)) (funext fun i => ?_)
  by_cases hi : i = xs.length
  · subst hi
    simp [ofList]
  · rw [update_of_ne hi]
    rfl

/-- The next character behind a string. -/
theorem store_concat (x : α) (hin : xs.length < n) :
    (ofList xs : Buffer α n).store xs.length x = some (ofList (xs ++ [x])) := by
  rw [store, if_pos hin]
  refine congrArg (fun f => some (Buffer.mk f)) (funext fun i => ?_)
  rcases Nat.lt_trichotomy i xs.length with hlt | rfl | hgt
  · rw [update_of_ne (by omega)]
    simp [ofList, List.getElem?_append_left hlt]
  · simp [ofList]
  · have hbehind : (xs ++ [x]).length ≤ i := by
      rw [List.length_append]
      exact hgt
    rw [update_of_ne (by omega)]
    change xs[i]?.getD 0 = (xs ++ [x])[i]?.getD 0
    rw [List.getElem?_eq_none (Nat.le_of_lt hgt), List.getElem?_eq_none hbehind]

theorem Holds.run_of_free (h : Holds b xs) (hfree : ∀ x ∈ xs, ¬ stop x) (hstop : stop 0) :
    Run stop b 0 xs where
  text k hk := by
    rw [Nat.zero_add]
    exact h.stands.text k hk
  free := hfree
  ended := by
    rwa [Nat.zero_add, h.stands.ended]
  inside := by
    rw [Nat.zero_add]
    exact h.inside

theorem Holds.run_zero (h : Holds b xs) : Run (· = 0) b 0 xs := h.run_of_free h.stands.proper rfl

/-- An operation puts the string `xs` into an array, and fails if it does not fit. -/
def Yields (o : Option (Buffer α n)) (xs : List α) : Prop :=
  if xs.length < n then ∃ b, o = some b ∧ Holds b xs else o = none

theorem Yields.holds (h : Holds b xs) : Yields (some b) xs := by
  rw [Yields, if_pos h.inside]
  exact ⟨b, rfl, h⟩

theorem Yields.exists {o : Option (Buffer α n)} (h : Yields o xs) (hin : xs.length < n) :
    ∃ b, o = some b ∧ Holds b xs := by
  rwa [Yields, if_pos hin] at h

theorem Yields.eq_none {o : Option (Buffer α n)} (h : Yields o xs) (hin : n ≤ xs.length) :
    o = none := by
  rwa [Yields, if_neg (by omega)] at h

theorem Yields.bind {o : Option (Buffer α n)}
    {f : Buffer α n → Option (Buffer α n)} (h : Yields o xs)
    (hf : ∀ b, Holds b xs → Yields (f b) (xs ++ ys)) : Yields (o.bind f) (xs ++ ys) := by
  by_cases hin : xs.length < n
  · obtain ⟨b, rfl, hb⟩ := h.exists hin
    exact hf b hb
  · rw [h.eq_none (by omega), Yields, List.length_append, if_neg (by omega)]
    rfl

theorem Holds.load_zero (h : Holds b xs) : b.load 0 = some (xs.headD 0) := by
  have hin := h.inside
  rw [load, if_pos (by omega)]
  cases xs with
  | nil => exact congrArg some h.stands.ended
  | cons x xs => exact congrArg some (h.stands.text 0 (Nat.succ_pos _))

theorem Holds.load_last (h : Holds b xs) (hne : xs ≠ []) :
    b.load ((xs.length : Int) - 1) = some (xs.getLast hne) := by
  have hin := h.inside
  have hpos := List.length_pos_iff.mpr hne
  have hlast : ((xs.length : Int) - 1).toNat = xs.length - 1 := by omega
  rw [load, if_pos (by omega), hlast, h.stands.text _ (by omega), List.getLast_eq_getElem]

/-- A copy of the characters up to the end of a string, and of what is behind it. -/
theorem Holds.copy {src : Buffer α m} (h : Holds src xs) (dest : Buffer α n) (hk : xs.length < i)
    (hn : i ≤ n) (hm : i ≤ m) : ∃ b, dest.copy src i = some b ∧ Holds b xs := by
  refine ⟨_, if_pos ⟨hn, hm⟩, ⟨fun k hk' => ?_, ?_, h.stands.proper⟩, Nat.lt_of_lt_of_le hk hn⟩
  · exact (if_pos (Nat.lt_trans hk' hk)).trans (h.stands.text k hk')
  · exact (if_pos hk).trans h.stands.ended

variable [DecidablePred stop]

omit [Zero α] in
/-- The loop ends exactly at a stop in the array. -/
theorem exists_skip_iff (b : Buffer α n) (i : Nat) :
    (∃ k, b.skip stop i = some k) ↔ ∃ k, i ≤ k ∧ k < n ∧ stop (b.byte k) := by
  unfold skip
  induction hleft : n - i generalizing i with
  | zero =>
      constructor
      · rintro ⟨k, hk⟩
        cases hk
      · rintro ⟨k, hik, hkn, _⟩
        omega
  | succ left ih =>
      rw [skipFrom]
      by_cases hstop : stop (b.byte i)
      · rw [if_pos hstop]
        exact ⟨fun _ => ⟨i, Nat.le_refl i, by omega, hstop⟩, fun _ => ⟨i, rfl⟩⟩
      · rw [if_neg hstop, ih (i + 1) (by omega)]
        constructor
        · rintro ⟨k, hik, hk⟩
          exact ⟨k, by omega, hk⟩
        · rintro ⟨k, hik, hkn, hk⟩
          have hne : k ≠ i := fun he => hstop (he ▸ hk)
          exact ⟨k, by omega, hkn, hk⟩

theorem Holds.run (h : Holds b xs) (hstop : stop 0) :
    Run stop b 0 (xs.takeWhile fun c => ¬ stop c) := by
  refine run_takeWhile (fun k hk => ?_) ?_ ?_
  · rw [Nat.zero_add]
    exact h.stands.text k hk
  · rwa [Nat.zero_add, h.stands.ended]
  · rw [Nat.zero_add]
    exact h.inside

/-- The copy of a text into an array of zeros. -/
theorem Run.copyUntil_blank {src : Buffer α m} (h : Run stop src i xs) (hn : xs.length ≤ n) :
    src.copyUntil stop i (blank : Buffer α n) 0 = some (i + xs.length, ofList xs, xs.length) := by
  rw [h.copyUntil_eq (Nat.zero_le n), Nat.zero_add, if_pos hn, put_blank]

/-- What a loop reads of the array that holds `xs` in front of zeros. -/
theorem run_ofList (hin : xs.length < n) (hi : i < n) (hstop : stop 0) :
    Run stop (ofList xs : Buffer α n) i ((xs.drop i).takeWhile fun c => ¬ stop c) := by
  refine run_takeWhile (fun k hk => ?_) ?_ ?_
  · have hlen := hk
    rw [List.length_drop] at hlen
    simp [ofList, show i + k < xs.length by omega]
  · rw [List.length_drop, ofList]
    simpa [show xs.length ≤ i + (xs.length - i) by omega] using hstop
  · rw [List.length_drop]
    omega

end Strings

end Buffer
