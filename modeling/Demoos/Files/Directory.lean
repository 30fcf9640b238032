import Demoos.Memory.Machine

/-!
# Directories

`syscall_get_next_entry` over a library that reads directories.  A directory is what the library
returns one after the other: it finds the entry at its cursor, and it moves behind an entry
or says that there is no slot behind it.

The memory that an entry is copied to begins with the name, and behind its last character
comes `is_dir`.
-/

namespace Demoos

open Function (update update_self update_of_ne)

-- `FAT_MAX_NAME_SIZE` and `FAT_ERR_EOF`.
def fatMaxNameSize : Nat := 64
def fatErrEof : Int := -6

/-- What `syscall_get_next_entry` uses of a `DirInfo`. -/
structure DirInfo where
  name : Nat → Byte
  nameLen : Nat
  isDir : Bool

/-- `fat_dir_read` and `fat_dir_next` on a `Dir`. -/
structure DirLibrary (δ : Type) where
  read : δ → Int × DirInfo × δ
  next : δ → Int × δ

/-- A call of `syscall_get_next_entry`: its result, the memory from `entry_info->name` on, and
how many characters of it the copy of the name writes. -/
structure Entry where
  result : Int
  memory : Nat → Byte
  written : Nat

namespace Entry

/-- The call has returned the entry `e`. -/
structure Shows (e : DirInfo) (x : Entry) : Prop where
  result : x.result = 0
  name : ∀ i < e.nameLen, x.memory i = e.name i
  isDir : x.memory fatMaxNameSize = if e.isDir then 1 else 0

end Entry

variable {δ : Type}

def nameSize (e : DirInfo) : Nat := if e.nameLen < 255 then e.nameLen else 255

/-- The loop over the name, and the assignment of `is_dir`. -/
def copyEntry (memory : Nat → Byte) (e : DirInfo) : Nat → Byte :=
  update (fun i => if i < nameSize e then e.name i else memory i) fatMaxNameSize
    (if e.isDir then 1 else 0)

/-- `syscall_get_next_entry`, for an open directory. -/
def getNextEntry (lib : DirLibrary δ) (dir : δ) (memory : Nat → Byte) : Entry × δ :=
  let (error, e, dir) := lib.read dir
  if error ≠ 0 then (⟨-1, memory, 0⟩, dir)
  else
    let memory := copyEntry memory e
    let (error, dir) := lib.next dir
    if error ≠ 0 then (⟨-1, memory, nameSize e⟩, dir) else (⟨0, memory, nameSize e⟩, dir)

/-- The calls up to the first one that fails, where call `k` is given the memory
`memory k`. -/
def enumerate (lib : DirLibrary δ) : Nat → (Nat → Nat → Byte) → δ → Option (List Entry)
  | 0, _, _ => none
  | fuel + 1, memory, dir =>
      let (x, dir) := getNextEntry lib dir (memory 0)
      if x.result ≠ 0 then some [x]
      else (enumerate lib fuel (fun k => memory (k + 1)) dir).map (x :: ·)

/-- The library finds the entries `es` from the cursor of `dir` on.  `full` says that
the last of them has the last slot of the last cluster. -/
inductive DirLibrary.Lists (lib : DirLibrary δ) (full : Bool) : δ → List DirInfo → Prop where
  | nil {dir : δ} (hread : (lib.read dir).1 ≠ 0) : Lists lib full dir []
  | last {dir dir' : δ} {e : DirInfo} (hread : lib.read dir = (0, e, dir'))
      (hlen : e.nameLen ≤ 255) (hfull : full = true) (hnext : (lib.next dir').1 = fatErrEof) :
      Lists lib full dir [e]
  | cons {dir dir' dir'' : δ} {e : DirInfo} {es : List DirInfo}
      (hread : lib.read dir = (0, e, dir')) (hlen : e.nameLen ≤ 255)
      (hmore : es ≠ [] ∨ full = false) (hnext : lib.next dir' = (0, dir''))
      (hrest : Lists lib full dir'' es) : Lists lib full dir (e :: es)

/-- Every entry is returned once and in order, and no name is written behind its array. -/
def Complete (lib : DirLibrary δ) (memory : Nat → Nat → Byte) (dir : δ) (es : List DirInfo) :
    Prop :=
  ∃ fuel xs x, enumerate lib fuel memory dir = some (xs ++ [x]) ∧ x.result ≠ 0 ∧
    List.Forall₂ Entry.Shows es xs ∧ ∀ y ∈ xs ++ [x], y.written ≤ fatMaxNameSize

/-! ## One call -/

section Call

variable {lib : DirLibrary δ} {memory : Nat → Byte} {dir dir' dir'' : δ} {e : DirInfo}

theorem nameSize_eq (h : e.nameLen ≤ 255) : nameSize e = e.nameLen := by
  unfold nameSize
  split <;> omega

theorem shows_copyEntry (h : e.nameLen ≤ fatMaxNameSize) (written : Nat) :
    Entry.Shows e ⟨0, copyEntry memory e, written⟩ := by
  have hsize : nameSize e = e.nameLen := nameSize_eq (by unfold fatMaxNameSize at h; omega)
  refine ⟨rfl, fun i hi => ?_, ?_⟩
  · have hne : i ≠ fatMaxNameSize := by omega
    simp only [copyEntry, update_of_ne hne, hsize, if_pos hi]
  · simp only [copyEntry, update_self]

theorem getNextEntry_of_read (h : (lib.read dir).1 ≠ 0) :
    (getNextEntry lib dir memory).1 = ⟨-1, memory, 0⟩ := by
  simp only [getNextEntry, if_pos h]

theorem getNextEntry_of_next (hread : lib.read dir = (0, e, dir'))
    (hnext : (lib.next dir').1 ≠ 0) :
    (getNextEntry lib dir memory).1 = ⟨-1, copyEntry memory e, nameSize e⟩ := by
  simp only [getNextEntry, hread, ne_eq, not_true_eq_false, if_false, if_pos hnext]

theorem getNextEntry_eq (hread : lib.read dir = (0, e, dir')) (hnext : lib.next dir' = (0, dir'')) :
    getNextEntry lib dir memory = (⟨0, copyEntry memory e, nameSize e⟩, dir'') := by
  simp only [getNextEntry, hread, hnext, ne_eq, not_true_eq_false, if_false]

end Call

/-! ## The calls until one fails -/

section Calls

variable {lib : DirLibrary δ} {memory : Nat → Nat → Byte} {dir dir' : δ} {x : Entry}

theorem enumerate_stop (fuel : Nat) (h : (getNextEntry lib dir (memory 0)).1.result ≠ 0) :
    enumerate lib (fuel + 1) memory dir = some [(getNextEntry lib dir (memory 0)).1] := by
  simp only [enumerate, if_pos h]

theorem enumerate_more (fuel : Nat) (hcall : getNextEntry lib dir (memory 0) = (x, dir'))
    (h : x.result = 0) :
    enumerate lib (fuel + 1) memory dir =
      (enumerate lib fuel (fun k => memory (k + 1)) dir').map (x :: ·) := by
  simp only [enumerate, hcall, h, ne_eq, not_true_eq_false, if_false]

/-- A call that fails ends the enumeration: it is complete when nothing is left and
the failing call stays in its array. -/
theorem complete_of_stop (h : (getNextEntry lib dir (memory 0)).1.result ≠ 0)
    (es : List DirInfo) :
    Complete lib memory dir es ↔
      es = [] ∧ (getNextEntry lib dir (memory 0)).1.written ≤ fatMaxNameSize := by
  constructor
  · rintro ⟨fuel, xs, x, henum, -, hshows, hwritten⟩
    cases fuel with
    | zero => cases henum
    | succ fuel =>
        rw [enumerate_stop fuel h] at henum
        obtain ⟨rfl, rfl⟩ : xs = [] ∧ x = (getNextEntry lib dir (memory 0)).1 := by
          cases xs with
          | nil => exact ⟨rfl, (List.cons.inj (Option.some.inj henum)).1.symm⟩
          | cons y ys =>
              have hnil := (List.cons.inj (Option.some.inj henum)).2
              exact absurd hnil.symm (by simp)
        cases hshows
        exact ⟨rfl, hwritten _ (by simp)⟩
  · rintro ⟨rfl, hwritten⟩
    refine ⟨1, [], (getNextEntry lib dir (memory 0)).1, enumerate_stop 0 h, h, .nil, ?_⟩
    intro y hy
    rwa [List.mem_singleton.mp hy]

/-- A call that returns an entry: the rest of the enumeration starts behind it. -/
theorem complete_of_more (hcall : getNextEntry lib dir (memory 0) = (x, dir')) (h : x.result = 0)
    (e : DirInfo) (es : List DirInfo) :
    Complete lib memory dir (e :: es) ↔
      (Entry.Shows e x ∧ x.written ≤ fatMaxNameSize) ∧
        Complete lib (fun k => memory (k + 1)) dir' es := by
  constructor
  · rintro ⟨fuel, xs, y, henum, hy, hshows, hwritten⟩
    cases fuel with
    | zero => cases henum
    | succ fuel =>
        rw [enumerate_more fuel hcall h] at henum
        obtain ⟨rest, hrest, hcons⟩ := Option.map_eq_some_iff.mp henum
        cases hshows with
        | cons hx hxs =>
            obtain ⟨rfl, rfl⟩ := List.cons.inj hcons
            exact ⟨⟨hx, hwritten x (by simp)⟩, fuel, _, y, hrest, hy, hxs,
              fun z hz => hwritten z (List.mem_cons_of_mem _ hz)⟩
  · rintro ⟨⟨hx, hxw⟩, fuel, xs, y, henum, hy, hshows, hwritten⟩
    refine ⟨fuel + 1, x :: xs, y, ?_, hy, .cons hx hshows, ?_⟩
    · rw [enumerate_more fuel hcall h, henum]
      rfl
    · rintro z (_ | ⟨_, hz⟩)
      · exact hxw
      · exact hwritten z hz

end Calls

/-! ## Completeness -/

/-- An entry is lost when it has the last slot of the last cluster: the error of moving behind
it takes the place of the entry.  And a name of more than `FAT_MAX_NAME_SIZE` characters
runs behind its array. -/
theorem complete_iff {lib : DirLibrary δ} {full : Bool} {dir : δ} {es : List DirInfo}
    (hlists : lib.Lists full dir es) (memory : Nat → Nat → Byte) :
    Complete lib memory dir es ↔
      (full = false ∨ es = []) ∧ ∀ e ∈ es, e.nameLen ≤ fatMaxNameSize := by
  induction hlists generalizing memory with
  | @nil dir hread =>
      have hcall : (getNextEntry lib dir (memory 0)).1 = ⟨-1, memory 0, 0⟩ :=
        getNextEntry_of_read hread
      rw [complete_of_stop (by simp [hcall]), hcall]
      simp
  | @last dir dir' e hread hlen hfull hnext =>
      have hcall : (getNextEntry lib dir (memory 0)).1 =
          ⟨-1, copyEntry (memory 0) e, nameSize e⟩ :=
        getNextEntry_of_next hread (by rw [hnext]; decide)
      rw [complete_of_stop (by simp [hcall])]
      simp [hfull]
  | @cons dir dir' dir'' e es hread hlen hmore hnext hrest ih =>
      rw [complete_of_more (getNextEntry_eq hread hnext) rfl, ih, nameSize_eq hlen]
      constructor
      · rintro ⟨⟨-, hname⟩, hfull, hnames⟩
        refine ⟨.inl (hfull.elim id fun hes => hmore.resolve_left (· hes)), ?_⟩
        exact List.forall_mem_cons.mpr ⟨hname, hnames⟩
      · rintro ⟨hfull, hnames⟩
        obtain ⟨hname, hnames⟩ := List.forall_mem_cons.mp hnames
        exact ⟨⟨shows_copyEntry hname _, hname⟩, .inl (hfull.resolve_right (by simp)), hnames⟩

/-! ## Two libraries -/

/-- The cursor is on the first of the entries that are left. -/
def listLibrary : DirLibrary (List DirInfo) where
  read
    | [] => (fatErrEof, ⟨fun _ => 0, 0, false⟩, [])
    | e :: es => (0, e, e :: es)
  next es := (0, es.tail)

theorem listLibrary_lists {es : List DirInfo} (h : ∀ e ∈ es, e.nameLen ≤ 255) :
    listLibrary.Lists false es es := by
  induction es with
  | nil => exact .nil (by decide)
  | cons e es ih =>
      obtain ⟨hlen, hrest⟩ := List.forall_mem_cons.mp h
      exact .cons rfl hlen (.inr rfl) rfl (ih hrest)

/-- A file named `a`. -/
def oneEntry : DirInfo := ⟨fun _ => 97, 1, false⟩

/-- A file, a directory with a name of four characters, and a file whose name fills its array. -/
def threeEntries : List DirInfo := [oneEntry, ⟨fun i => 98 + i, 4, true⟩, ⟨fun _ => 99, 64, false⟩]

theorem complete_threeEntries :
    Complete listLibrary (fun _ _ => 0) threeEntries threeEntries :=
  (complete_iff (listLibrary_lists (by decide)) _).mpr ⟨.inl rfl, by decide⟩

/-- The cursor is on the entry as long as it is `false`, and there is no slot behind it. -/
def oneLibrary : DirLibrary Bool where
  read dir := if dir then (fatErrEof, oneEntry, dir) else (0, oneEntry, dir)
  next _ := (fatErrEof, true)

/-- The entry has the last slot, and `ls` shows an empty directory. -/
theorem not_complete_full :
    oneLibrary.Lists true false [oneEntry] ∧
      ¬ Complete oneLibrary (fun _ _ => 0) false [oneEntry] := by
  refine ⟨.last (show oneLibrary.read false = (0, oneEntry, false) from rfl) (by decide) rfl rfl, ?_⟩
  rw [complete_of_stop (by decide)]
  exact fun h => absurd h.1 (by simp)

end Demoos
