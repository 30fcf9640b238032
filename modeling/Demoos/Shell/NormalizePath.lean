import Demoos.Lib.CString
import Mathlib.Data.BitVec

/-!
# The scan of `normalize_path`

`normalize_path` rewrites a path in place, with one index that reads and one that writes.  An
index is an `int`, and so the memory is a function of the integers: what is in front of the
path has negative indexes.

A scan also has two histories, which no definition reads: the indexes of the memory that it has read
or written, and the positions of its two indexes at each iteration.

What has been written, read backwards, is a stack (`Holds`).  An iteration pushes a character, skips a
`.`, or pops a name with a `..`.
-/

namespace Demoos

open Function (update update_self update_of_ne)
open CString (Stands)

/-- A `char`. -/
abbrev CChar := BitVec 8

def dot : CChar := 46
def slash : CChar := 47

/-! ## The source -/

structure Scan where
  path : Int → CChar
  read : Int
  write : Int
  touched : List Int
  positions : List (Int × Int)

namespace Scan

def look (s : Scan) (i : Int) : Scan := { s with touched := i :: s.touched }

def store (s : Scan) (i : Int) (c : CChar) : Scan :=
  { s with
    path := update s.path i c
    touched := i :: s.touched }

/-- Is `path[i]` a slash or the end? -/
def stopsAt (s : Scan) (i : Int) : Prop := s.path i = slash ∨ s.path i = 0

instance (s : Scan) (i : Int) : Decidable (s.stopsAt i) :=
  inferInstanceAs (Decidable (_ ∨ _))

/-- The reads of the two conditions of the loop body. -/
def lookAhead (s : Scan) : Scan :=
  if s.path s.read = dot then
    if s.path (s.read + 1) = dot then ((s.look s.read).look (s.read + 1)).look (s.read + 2)
    else (s.look s.read).look (s.read + 1)
  else s.look s.read

/-- `while (write > 0 && path[write - 1] != '/') write--;` -/
def backUp : Nat → Scan → Scan
  | 0, s => s
  | fuel + 1, s =>
      if 0 < s.write then
        let s := s.look (s.write - 1)
        if s.path (s.write - 1) ≠ slash then backUp fuel { s with write := s.write - 1 } else s
      else s

/-- The body of the loop. -/
def iterate (s : Scan) : Scan :=
  let s := s.lookAhead
  if s.path s.read = dot ∧ s.stopsAt (s.read + 1) then
    { s with read := s.read + if s.path (s.read + 1) = slash then 2 else 1 }
  else if s.path s.read = dot ∧ s.path (s.read + 1) = dot ∧ s.stopsAt (s.read + 2) then
    backUp s.write.toNat { s with
      read := s.read + if s.path (s.read + 2) = slash then 3 else 2
      write := s.write - 1 }
  else
    let s := s.store s.write (s.path s.read)
    { s with
      read := s.read + 1
      write := s.write + 1 }

/-- What comes behind the loop. -/
def finish (s : Scan) : Scan :=
  let s := s.store s.write 0
  if s.write = 0 then (s.store s.write slash).store (s.write + 1) 0 else s

/-- The test of the loop. -/
def test (s : Scan) : Scan :=
  { s.look s.read with positions := (s.read, s.write) :: s.positions }

/-- The loop, and its end. -/
def run : Nat → Scan → Option Scan
  | 0, _ => none
  | fuel + 1, s => if s.path s.read = 0 then some s.test.finish else run fuel s.test.iterate

def start (path : Int → CChar) : Scan := ⟨path, 0, 0, [], []⟩

end Scan

def normalizePath (fuel : Nat) (path : Int → CChar) : Option Scan := Scan.run fuel (Scan.start path)

/-! ## Positions -/

namespace Scan

variable {s t u : Scan} {n : Nat} {acc mid rest w : List CChar} {c : CChar}

/-- The scan `s` ends with `t`. -/
def Ends (s t : Scan) : Prop := ∃ fuel, run fuel s = some t

/-- The next iteration. -/
def next (s : Scan) : Scan := s.test.iterate

theorem ends_next (h : s.path s.read ≠ 0) : Ends s t ↔ Ends s.next t := by
  constructor
  · rintro ⟨fuel, hrun⟩
    cases fuel with
    | zero => cases hrun
    | succ fuel =>
        rw [run, if_neg h] at hrun
        exact ⟨fuel, hrun⟩
  · rintro ⟨fuel, hrun⟩
    refine ⟨fuel + 1, ?_⟩
    rw [run, if_neg h]
    exact hrun

theorem ends_finish (h : s.path s.read = 0) : Ends s t ↔ t = s.test.finish := by
  constructor
  · rintro ⟨fuel, hrun⟩
    cases fuel with
    | zero => cases hrun
    | succ fuel =>
        rw [run, if_pos h] at hrun
        exact (Option.some.inj hrun).symm
  · rintro rfl
    exact ⟨1, if_pos h⟩

@[simp] theorem positions_backUp (fuel : Nat) (s : Scan) :
    (backUp fuel s).positions = s.positions := by
  induction fuel generalizing s with
  | zero => rfl
  | succ fuel ih =>
      unfold backUp
      split
      next =>
        dsimp only
        split
        next => exact ih _
        next => rfl
      next => rfl

theorem positions_iterate (s : Scan) : s.iterate.positions = s.positions := by
  have hlook : s.lookAhead.positions = s.positions := by
    unfold lookAhead
    split
    next => split <;> rfl
    next => rfl
  unfold iterate
  dsimp only
  split
  next => exact hlook
  next =>
    split
    next => exact (positions_backUp _ _).trans hlook
    next => exact hlook

theorem positions_finish (s : Scan) : s.finish.positions = s.positions := by
  unfold finish
  dsimp only
  split <;> rfl

theorem positions_subset_of_run {fuel : Nat} (h : run fuel s = some t) :
    s.test.positions ⊆ t.positions := by
  induction fuel generalizing s with
  | zero => cases h
  | succ fuel ih =>
      rw [run] at h
      split at h
      next =>
        obtain rfl := Option.some.inj h
        rw [positions_finish]
        exact List.Subset.refl _
      next =>
        have hrest := ih h
        rw [← positions_iterate s.test]
        exact fun q hq => hrest (List.mem_cons_of_mem _ hq)

/-- The position of a scan is in its history in the end. -/
theorem Ends.position (h : Ends s t) : (s.read, s.write) ∈ t.positions := by
  obtain ⟨fuel, hrun⟩ := h
  exact positions_subset_of_run hrun List.mem_cons_self

/-! ## What the memory holds -/

/-- A segment ends in front of `rest`. -/
def AtEnd (rest : List CChar) : Prop := rest = [] ∨ ∃ r, rest = slash :: r

/-- No index has left a path of length `n`, and the one that writes has not passed the one that
reads. -/
structure Within (n : Nat) (s : Scan) : Prop where
  touched : ∀ i ∈ s.touched, 0 ≤ i ∧ i ≤ max n 1
  positions : ∀ q ∈ s.positions, 0 ≤ q.2 ∧ q.2 ≤ q.1

namespace Within

variable {i : Int}

theorem look (h : s.Within n) (hi : 0 ≤ i ∧ i ≤ max n 1) : (s.look i).Within n :=
  ⟨List.forall_mem_cons.mpr ⟨hi, h.touched⟩, h.positions⟩

theorem store (h : s.Within n) (hi : 0 ≤ i ∧ i ≤ max n 1) (c : CChar) : (s.store i c).Within n :=
  ⟨List.forall_mem_cons.mpr ⟨hi, h.touched⟩, h.positions⟩

theorem test (h : s.Within n) (hw : 0 ≤ s.write) (hr : s.write ≤ s.read) (hn : s.read ≤ max n 1) :
    s.test.Within n :=
  ⟨(h.look ⟨Int.le_trans hw hr, hn⟩).touched, List.forall_mem_cons.mpr ⟨⟨hw, hr⟩, h.positions⟩⟩

end Within

/-- The part `rest` of a path of length `n` is unread and the stack `acc` is written, with what
is left of the path in between. -/
structure Holds (n : Nat) (s : Scan) (acc mid rest : List CChar) : Prop where
  text : Stands (fun i : Nat => s.path i) (acc.reverse ++ (mid ++ rest))
  length : acc.length + (mid.length + rest.length) = n
  write : s.write = acc.length
  read : s.read = (acc.length + mid.length : Nat)
  within : s.Within n

theorem holds_start {path : Int → CChar} {xs : List CChar}
    (h : Stands (fun i : Nat => path i) xs) : Holds xs.length (start path) [] [] xs where
  text := h
  length := by simp
  write := rfl
  read := rfl
  within := ⟨by simp [start], by simp [start]⟩

namespace Holds

/-- The unread part from the index `read` on. -/
theorem unread (h : Holds n s acc mid rest) : Stands (fun i : Nat => s.path (s.read + i)) rest := by
  have hdrop : Stands (fun i : Nat => s.path ((acc.reverse ++ mid).length + i : Nat)) rest := by
    refine Stands.drop (m := fun i : Nat => s.path i) ?_
    rw [List.append_assoc]
    exact h.text
  refine hdrop.congr fun i hi => ?_
  rw [h.read, List.length_append, List.length_reverse, ← Int.natCast_add]

theorem at_read (h : Holds n s acc mid (c :: rest)) : s.path s.read = c := by
  have hc := (show Stands _ ([] ++ c :: rest) from h.unread).at_append
  rwa [List.length_nil, Int.natCast_zero, Int.add_zero] at hc

theorem at_end (h : Holds n s acc mid []) : s.path s.read = 0 := by
  have hc := h.unread.ended
  rwa [List.length_nil, Int.natCast_zero, Int.add_zero] at hc

theorem at_second {c' : CChar} (h : Holds n s acc mid (c :: c' :: rest)) :
    s.path (s.read + 1) = c' := (show Stands _ ([c] ++ c' :: rest) from h.unread).at_append

theorem ne_zero (h : Holds n s acc mid rest) (hc : c ∈ rest) : c ≠ 0 := h.unread.proper c hc

theorem stopsAt_drop {xs : List CChar} (h : Holds n s acc mid (xs ++ rest)) :
    s.stopsAt (s.read + xs.length) ↔ AtEnd rest := by
  have hdrop := h.unread.drop
  cases rest with
  | nil => exact iff_of_true (.inr hdrop.ended) (.inl rfl)
  | cons c rest =>
      have hc : s.path (s.read + xs.length) = c :=
        (show Stands _ ([] ++ c :: rest) from hdrop).at_append
      have hne : c ≠ 0 := hdrop.proper c List.mem_cons_self
      rw [stopsAt, hc]
      constructor
      · rintro (hslash | hzero)
        · exact .inr ⟨rest, by rw [hslash]⟩
        · exact absurd hzero hne
      · rintro (hnil | ⟨r, hr⟩)
        · exact absurd hnil (List.cons_ne_nil c rest)
        · exact .inl (List.cons.inj hr).1

theorem isDot_iff (h : Holds n s acc mid rest) :
    s.path s.read = dot ∧ s.stopsAt (s.read + 1) ↔ ∃ r, rest = dot :: r ∧ AtEnd r := by
  cases rest with
  | nil =>
      rw [h.at_end]
      exact iff_of_false (fun hd => absurd hd.1 (by decide)) (fun ⟨r, hr, _⟩ => absurd hr (by simp))
  | cons c rest =>
      rw [h.at_read]
      have hstops : s.stopsAt (s.read + 1) ↔ AtEnd rest :=
        stopsAt_drop (show Holds n s acc mid ([c] ++ rest) from h)
      rw [hstops]
      constructor
      · rintro ⟨rfl, hend⟩
        exact ⟨rest, rfl, hend⟩
      · rintro ⟨r, hr, hend⟩
        obtain ⟨rfl, rfl⟩ := List.cons.inj hr
        exact ⟨rfl, hend⟩

theorem isDotDot_iff (h : Holds n s acc mid rest) :
    s.path s.read = dot ∧ s.path (s.read + 1) = dot ∧ s.stopsAt (s.read + 2) ↔
      ∃ r, rest = dot :: dot :: r ∧ AtEnd r := by
  rcases rest with _ | ⟨c, _ | ⟨c', rest⟩⟩
  · rw [h.at_end]
    exact iff_of_false (fun hd => absurd hd.1 (by decide)) (fun ⟨r, hr, _⟩ => absurd hr (by simp))
  · have hend : s.path (s.read + 1) = 0 := h.unread.ended
    rw [hend]
    exact iff_of_false (fun hd => absurd hd.2.1 (by decide)) (fun ⟨r, hr, _⟩ => absurd hr (by simp))
  · have hstops : s.stopsAt (s.read + 2) ↔ AtEnd rest :=
      stopsAt_drop (show Holds n s acc mid ([c, c'] ++ rest) from h)
    rw [h.at_read, h.at_second, hstops]
    constructor
    · rintro ⟨rfl, rfl, hend⟩
      exact ⟨rest, rfl, hend⟩
    · rintro ⟨r, hr, hend⟩
      obtain ⟨rfl, hrest⟩ := List.cons.inj hr
      obtain ⟨rfl, rfl⟩ := List.cons.inj hrest
      exact ⟨rfl, rfl, hend⟩

end Holds

/-! ## One iteration -/

section Iteration

@[simp] theorem path_lookAhead (s : Scan) : s.lookAhead.path = s.path := by
  unfold lookAhead
  split
  next => split <;> rfl
  next => rfl

@[simp] theorem read_lookAhead (s : Scan) : s.lookAhead.read = s.read := by
  unfold lookAhead
  split
  next => split <;> rfl
  next => rfl

@[simp] theorem write_lookAhead (s : Scan) : s.lookAhead.write = s.write := by
  unfold lookAhead
  split
  next => split <;> rfl
  next => rfl

/-- The conditions of the body look at the text and its end only. -/
theorem Holds.within_lookAhead (h : Holds n s acc mid (c :: rest)) :
    s.test.lookAhead.Within n := by
  have hread := h.read
  have hwrite := h.write
  have hlen := h.length
  rw [List.length_cons] at hlen
  have htest : s.test.Within n := h.within.test (by omega) (by omega) (by omega)
  have hone : (s.test.look s.read).Within n := htest.look (by omega)
  have htwo : ((s.test.look s.read).look (s.read + 1)).Within n := hone.look (by omega)
  unfold lookAhead
  split
  next =>
    split
    next hdot =>
      refine htwo.look ?_
      have hrest : rest ≠ [] := by
        rintro rfl
        have hend : s.path (s.read + 1) = 0 := h.unread.ended
        exact absurd (hend.symm.trans hdot) (by decide)
      have hpos := List.length_pos_iff.mpr hrest
      change 0 ≤ s.read + 2 ∧ s.read + 2 ≤ _
      omega
    next => exact htwo
  next => exact hone

/-- An iteration, with its conditions on the state in front of it. -/
theorem next_eq (s : Scan) : s.next =
    if s.path s.read = dot ∧ s.stopsAt (s.read + 1) then
      { s.test.lookAhead with read := s.read + if s.path (s.read + 1) = slash then 2 else 1 }
    else if s.path s.read = dot ∧ s.path (s.read + 1) = dot ∧ s.stopsAt (s.read + 2) then
      backUp s.write.toNat { s.test.lookAhead with
        read := s.read + if s.path (s.read + 2) = slash then 3 else 2
        write := s.write - 1 }
    else
      { s.test.lookAhead.store s.write (s.path s.read) with
        read := s.read + 1
        write := s.write + 1 } := by
  have hpath : s.test.path = s.path := rfl
  have hread : s.test.read = s.read := rfl
  have hwrite : s.test.write = s.write := rfl
  simp only [next, iterate, stopsAt, path_lookAhead, read_lookAhead, write_lookAhead, hpath, hread,
    hwrite, store]

/-- A character that does not begin a `.` or a `..` at the end of a segment is pushed. -/
theorem Holds.copy (h : Holds n s acc mid (c :: rest))
    (hdot : ¬ ∃ r, c :: rest = dot :: r ∧ AtEnd r)
    (hup : ¬ ∃ r, c :: rest = dot :: dot :: r ∧ AtEnd r) :
    ∃ mid', Holds n s.next (c :: acc) mid' rest := by
  have hread := h.read
  have hwrite := h.write
  have hlen := h.length
  rw [List.length_cons] at hlen
  have hnext : s.next = { s.test.lookAhead.store s.write c with
      read := s.read + 1
      write := s.write + 1 } := by
    rw [next_eq, if_neg fun hc => hdot (h.isDot_iff.mp hc),
      if_neg fun hc => hup (h.isDotDot_iff.mp hc), h.at_read]
  obtain ⟨x, mid', hmid, hlength⟩ :
      ∃ x mid', mid ++ c :: rest = x :: (mid' ++ rest) ∧ mid'.length = mid.length := by
    cases mid with
    | nil => exact ⟨c, [], rfl, rfl⟩
    | cons x mid => exact ⟨x, mid ++ [c], by simp, by simp⟩
  have htext := h.text
  rw [hmid] at htext
  have hstored := htext.replace (h.ne_zero List.mem_cons_self)
  have hpath : (fun i : Nat => update s.path s.write c i) =
      update (fun i : Nat => s.path i) acc.reverse.length c := by
    funext i
    simp only [Function.update_apply, hwrite, List.length_reverse, Int.natCast_inj]
  rw [hnext]
  refine ⟨mid', ⟨?_, ?_, ?_, ?_, ?_⟩⟩
  · rw [List.reverse_cons, List.append_assoc, List.singleton_append]
    simp only [store, path_lookAhead]
    exact Eq.mp (congrArg (Stands · _) hpath.symm) hstored
  · rw [List.length_cons, hlength]
    omega
  · rw [List.length_cons]
    dsimp only
    omega
  · rw [List.length_cons, hlength]
    dsimp only
    omega
  · have hstore : (s.test.lookAhead.store s.write c).Within n :=
      h.within_lookAhead.store (by omega) c
    exact ⟨hstore.touched, hstore.positions⟩

/-- The index that reads moves on. -/
theorem Holds.advance {skipped : List CChar} (h : Holds n s acc mid (skipped ++ rest))
    (hpath : u.path = s.path) (hwrite : u.write = s.write) (hread : u.read = s.read + skipped.length)
    (hwithin : u.Within n) : Holds n u acc (mid ++ skipped) rest where
  text := by
    rw [hpath, List.append_assoc mid]
    exact h.text
  length := by
    have hlen := h.length
    rw [List.length_append] at hlen ⊢
    omega
  write := hwrite.trans h.write
  read := by
    rw [hread, h.read, List.length_append]
    omega
  within := hwithin

/-- A `.` is skipped. -/
theorem Holds.skipDot (h : Holds n s acc mid (dot :: rest)) (hend : AtEnd rest) :
    ∃ mid', Holds n s.next acc mid' rest.tail := by
  have hnext := next_eq s
  rw [if_pos (h.isDot_iff.mpr ⟨rest, rfl, hend⟩)] at hnext
  have hwithin : s.next.Within n := by
    rw [hnext]
    exact ⟨h.within_lookAhead.touched, h.within_lookAhead.positions⟩
  rcases hend with rfl | ⟨r, rfl⟩
  · have hstop : s.path (s.read + 1) = 0 := h.unread.ended
    refine ⟨_, (show Holds n s acc mid ([dot] ++ []) from h).advance ?_ ?_ ?_ hwithin⟩ <;>
      rw [hnext]
    · exact path_lookAhead _
    · exact write_lookAhead _
    · rw [if_neg (by rw [hstop]; decide)]
      rfl
  · have hstop : s.path (s.read + 1) = slash := h.at_second
    refine ⟨_, (show Holds n s acc mid ([dot, slash] ++ r) from h).advance ?_ ?_ ?_ hwithin⟩ <;>
      rw [hnext]
    · exact path_lookAhead _
    · exact write_lookAhead _
    · rw [if_pos hstop]
      rfl

/-- The state in front of the loop that backs up. -/
def beforeBackUp (s : Scan) : Scan :=
  { s.test.lookAhead with
    read := s.read + if s.path (s.read + 2) = slash then 3 else 2
    write := s.write - 1 }

theorem Holds.next_dotDot (h : Holds n s acc mid (dot :: dot :: rest)) (hend : AtEnd rest) :
    s.next = backUp s.write.toNat s.beforeBackUp := by
  rw [next_eq, if_neg, if_pos (h.isDotDot_iff.mpr ⟨rest, rfl, hend⟩)]
  · rfl
  · rw [h.isDot_iff]
    rintro ⟨r, hr, hr'⟩
    obtain rfl := (List.cons.inj hr).2
    rcases hr' with hr' | ⟨_, hr'⟩
    · exact absurd hr' (by simp)
    · exact absurd (List.cons.inj hr').1 (by decide)

theorem Holds.look {i : Int} (h : Holds n s acc mid rest) (hi : 0 ≤ i ∧ i ≤ max n 1) :
    Holds n (s.look i) acc mid rest := ⟨h.text, h.length, h.write, h.read, h.within.look hi⟩

/-- The index that writes moves back. -/
theorem Holds.drop (h : Holds n s (c :: acc) mid rest) :
    Holds n { s with write := s.write - 1 } acc (c :: mid) rest where
  text := by
    have htext := h.text
    rw [List.reverse_cons, List.append_assoc] at htext
    exact htext
  length := by
    have hlen := h.length
    rw [List.length_cons] at hlen ⊢
    omega
  write := by
    have hwrite := h.write
    rw [List.length_cons] at hwrite
    dsimp only
    omega
  read := by
    have hread := h.read
    rw [List.length_cons] at hread ⊢
    dsimp only
    omega
  within := ⟨h.within.touched, h.within.positions⟩

/-- The loop that backs up pops a name. -/
theorem Holds.backUp {fuel : Nat} (h : Holds n s acc mid rest) (hfuel : acc.length ≤ fuel) :
    ∃ mid', Holds n (backUp fuel s) (acc.dropWhile (· ≠ slash)) mid' rest := by
  induction acc generalizing s fuel mid with
  | nil =>
      refine ⟨mid, ?_⟩
      have hstop : Scan.backUp fuel s = s := by
        cases fuel with
        | zero => rfl
        | succ fuel => exact if_neg (by rw [h.write]; decide)
      rw [hstop]
      exact h
  | cons c acc ih =>
      obtain ⟨fuel, rfl⟩ : ∃ k, fuel = k + 1 := ⟨fuel - 1, by simp at hfuel; omega⟩
      have hwrite := h.write
      have hlen := h.length
      rw [List.length_cons] at hwrite hlen
      have hc : (s.look (s.write - 1)).path ((s.look (s.write - 1)).write - 1) = c := by
        change s.path (s.write - 1) = c
        have htext := h.text
        rw [List.reverse_cons, List.append_assoc] at htext
        have hat := htext.at_append
        rw [List.length_reverse] at hat
        rw [hwrite]
        simpa using hat
      have hlook := h.look (i := s.write - 1) (by omega)
      rw [Scan.backUp, if_pos (by omega)]
      dsimp only
      rw [hc]
      by_cases hslash : c = slash
      · rw [if_neg (not_not.mpr hslash), List.dropWhile_cons_of_neg (by simpa using hslash)]
        exact ⟨mid, hlook⟩
      · rw [if_pos hslash, List.dropWhile_cons_of_pos (by simpa using hslash)]
        exact ih hlook.drop (by simpa using hfuel)

/-- A `..` pops what is on the stack. -/
theorem Holds.pop (h : Holds n s (c :: acc) mid (dot :: dot :: rest)) (hend : AtEnd rest) :
    ∃ mid', Holds n s.next (acc.dropWhile (· ≠ slash)) mid' rest.tail := by
  have hwithin : Within n { s.beforeBackUp with write := s.write } :=
    ⟨h.within_lookAhead.touched, h.within_lookAhead.positions⟩
  have hskip : ∃ mid', Holds n { s.beforeBackUp with write := s.write } (c :: acc) mid'
      rest.tail := by
    rcases hend with rfl | ⟨r, rfl⟩
    · have hstop : s.path (s.read + 2) = 0 := h.unread.ended
      have hskip : Holds n s (c :: acc) mid ([dot, dot] ++ []) := h
      refine ⟨_, hskip.advance (path_lookAhead _) rfl ?_ hwithin⟩
      simp only [beforeBackUp, hstop]
      rfl
    · have hstop : s.path (s.read + 2) = slash :=
        (show Stands _ ([dot, dot] ++ slash :: r) from h.unread).at_append
      have hskip : Holds n s (c :: acc) mid ([dot, dot, slash] ++ r) := h
      refine ⟨_, hskip.advance (path_lookAhead _) rfl ?_ hwithin⟩
      simp only [beforeBackUp, hstop]
      rfl
  obtain ⟨mid', hmid⟩ := hskip
  rw [h.next_dotDot hend]
  refine hmid.drop.backUp ?_
  have hwrite := h.write
  rw [List.length_cons] at hwrite
  omega

/-- With nothing on the stack it takes the index in front of the path. -/
theorem Holds.under (h : Holds n s [] mid (dot :: dot :: rest)) (hend : AtEnd rest) :
    s.next = s.beforeBackUp ∧ s.next.write = -1 := by
  have hwrite : s.write = 0 := h.write
  have hnext : s.next = s.beforeBackUp := by
    rw [h.next_dotDot hend, hwrite]
    rfl
  refine ⟨hnext, ?_⟩
  rw [hnext, beforeBackUp, hwrite]
  rfl

end Iteration

/-! ## The end -/

/-- What the stack leaves. -/
def result (acc : List CChar) : List CChar := if acc = [] then [slash] else acc.reverse

/-- The end of the scan. -/
theorem Holds.finish (h : Holds n s acc mid []) :
    Within n s.test.finish ∧ Stands (fun i : Nat => s.test.finish.path i) (result acc) := by
  have hread := h.read
  have hwrite := h.write
  have hlen := h.length
  rw [List.length_nil] at hlen
  have htest : s.test.Within n := h.within.test (by omega) (by omega) (by omega)
  have hstore : (s.test.store s.write 0).Within n := htest.store (by omega) 0
  have hfinish : s.test.finish = if s.write = 0 then
      ((s.test.store s.write 0).store s.write slash).store (s.write + 1) 0
    else s.test.store s.write 0 := rfl
  rw [hfinish, result]
  cases acc with
  | nil =>
      have hzero : s.write = 0 := hwrite
      rw [if_pos hzero, if_pos rfl]
      have hslash := hstore.store (i := s.write) (by omega) slash
      refine ⟨hslash.store (by omega) 0, ?_, ?_, ?_⟩
      · intro i hi
        obtain rfl : i = 0 := by simpa using hi
        simp [store, hzero]
      · simp [store, hzero]
      · exact fun x hx => by rw [List.mem_singleton.mp hx]; decide
  | cons c acc =>
      rw [List.length_cons] at hwrite hlen
      rw [if_neg (by omega), if_neg (List.cons_ne_nil c acc)]
      refine ⟨hstore, ?_⟩
      have hpath : (fun i : Nat => update s.path s.write 0 i) =
          update (fun i : Nat => s.path i) (c :: acc).reverse.length 0 := by
        funext i
        simp only [Function.update_apply, hwrite, List.length_reverse, List.length_cons,
          Int.natCast_inj]
      exact Eq.mp (congrArg (Stands · _) hpath.symm) h.text.truncate

end Scan

end Demoos
