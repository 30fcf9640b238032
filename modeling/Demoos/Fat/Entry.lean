import Mathlib.Tactic.Ring
import Demoos.Fat.Volume
import Demoos.Lib.Tape

/-!
# Directory entries

An entry takes 32 bytes of its sector.  A name is stored twice: short, in the entry of the file
itself (`Sfn`), and as it is, in the entries before that one (`Lfn`), 13 bytes in each and the
last of them first.  A checksum of the short name ties them together.

Names are lists of bytes.  `char` has no sign on this machine.
-/

namespace Demoos.Fat

open Tape (pokes)

abbrev Byte := BitVec 8

/-- The bytes of an entry, from its first one on. -/
abbrev Entry := Nat → Byte

/-! ## Timestamps -/

structure Timestamp where
  hour : Nat
  min : Nat
  sec : Nat
  day : Nat
  month : Nat
  year : Nat
deriving DecidableEq, Repr

/-- `decode_timestamp` -/
def decodeTimestamp (date time : Nat) : Timestamp where
  day := date &&& 0x1f
  month := (date >>> 5) &&& 0xf
  year := ((date >>> 9) &&& 0x3f) + 1980
  hour := (time >>> 11) &&& 0x1f
  min := (time >>> 5) &&& 0x3f
  sec := 2 * (time &&& 0x1f)

/-- `encode_timestamp`, of what `fat_get_timestamp` gives. -/
def encodeTimestamp (ts : Timestamp) : Nat × Nat :=
  (((ts.year + 2 ^ 32 - 1980) &&& 0x3f) <<< 9 ||| (ts.month &&& 0xf) <<< 5 ||| (ts.day &&& 0x1f),
    ((ts.sec / 2) &&& 0x1f) ||| (ts.min &&& 0x3f) <<< 5 ||| (ts.hour &&& 0x1f) <<< 11)

/-- `fat_get_timestamp` -/
def fatGetTimestamp : Timestamp where
  day := 1
  month := 1
  year := 1980
  hour := 0
  min := 0
  sec := 0

theorem and_four (n : Nat) : n &&& 0xf = n % 16 := Nat.and_two_pow_sub_one_eq_mod n 4

theorem and_five (n : Nat) : n &&& 0x1f = n % 32 := Nat.and_two_pow_sub_one_eq_mod n 5

theorem and_six (n : Nat) : n &&& 0x3f = n % 64 := Nat.and_two_pow_sub_one_eq_mod n 6

/-- Three fields side by side. -/
theorem join_fields {a b c k l : Nat} (hb : b < 2 ^ l) (hc : c < 2 ^ k) :
    a <<< (l + k) ||| b <<< k ||| c = a * 2 ^ (l + k) + b * 2 ^ k + c := by
  rw [Nat.shiftLeft_add, ← Nat.shiftLeft_or_distrib, ← Nat.shiftLeft_add_eq_or_of_lt hb,
    ← Nat.shiftLeft_add_eq_or_of_lt hc]
  simp only [Nat.shiftLeft_eq, Nat.pow_add]
  ring

theorem encodeTimestamp_eq (ts : Timestamp) :
    encodeTimestamp ts =
      ((ts.year + 2 ^ 32 - 1980) % 64 * 512 + ts.month % 16 * 32 + ts.day % 32,
        ts.hour % 32 * 2048 + ts.min % 64 * 32 + ts.sec / 2 % 32) := by
  have hdate : ∀ y m d : Nat, (y % 64) <<< 9 ||| (m % 16) <<< 5 ||| d % 32 =
      y % 64 * 512 + m % 16 * 32 + d % 32 := fun y m d =>
    join_fields (k := 5) (l := 4) (Nat.mod_lt _ (by omega)) (Nat.mod_lt _ (by omega))
  have htime : ∀ h m s : Nat, s % 32 ||| (m % 64) <<< 5 ||| (h % 32) <<< 11 =
      h % 32 * 2048 + m % 64 * 32 + s % 32 := fun h m s => by
    rw [Nat.or_comm (s % 32), Nat.or_comm, ← Nat.or_assoc]
    exact join_fields (k := 5) (l := 6) (Nat.mod_lt _ (by omega)) (Nat.mod_lt _ (by omega))
  rw [encodeTimestamp]
  simp only [and_four, and_five, and_six, hdate, htime]

theorem decodeTimestamp_eq (date time : Nat) :
    decodeTimestamp date time =
      { day := date % 32, month := date / 32 % 16, year := date / 512 % 64 + 1980,
        hour := time / 2048 % 32, min := time / 32 % 64, sec := 2 * (time % 32) } := by
  simp only [decodeTimestamp, and_four, and_five, and_six, Nat.shiftRight_eq_div_pow]

/-- A timestamp is read back as it was if its second is even and its year one of 64. -/
theorem decode_encode_iff (ts : Timestamp) :
    decodeTimestamp (encodeTimestamp ts).1 (encodeTimestamp ts).2 = ts ↔
      (1980 ≤ ts.year ∧ ts.year < 2044) ∧ ts.month < 16 ∧ ts.day < 32 ∧ ts.hour < 32 ∧
        ts.min < 64 ∧ ts.sec < 64 ∧ ts.sec % 2 = 0 := by
  obtain ⟨hour, min, sec, day, month, year⟩ := ts
  rw [encodeTimestamp_eq, decodeTimestamp_eq]
  simp only [Timestamp.mk.injEq]
  omega

/-! ## Short names -/

/-- `to_upper` -/
def toUpper (c : Byte) : Byte := if 0x61 ≤ c ∧ c ≤ 0x7a then c &&& ~~~0x20 else c

/-- The special characters that a short name can have. -/
def sfnSpecial : List Byte :=
  [0x21, 0x23, 0x24, 0x25, 0x26, 0x27, 0x28, 0x29, 0x2d, 0x40, 0x5e, 0x5f, 0x60, 0x7b, 0x7d,
    0x7e, 0x20]

/-- `sfn_char` -/
def sfnChar (c : Byte) : Byte :=
  let c := toUpper c
  if 0x41 ≤ c ∧ c ≤ 0x5a then c else if c ∈ sfnSpecial then c else 0x5f

/-- `put_sfn_name`: the eleven bytes. -/
def putSfnName (name : List Byte) : List Byte :=
  let base := (name.take 8).takeWhile (· ≠ 0x2e)
  let ext := (((name.drop base.length).dropWhile (· ≠ 0x2e)).drop 1).take 3
  base.map sfnChar ++ List.replicate (8 - base.length) 0x20 ++
    (ext.map sfnChar ++ List.replicate (3 - ext.length) 0x20)

/-- `parse_sfn_name` -/
def parseSfnName (sfnName : List Byte) : List Byte :=
  (sfnName.take 8).takeWhile (· ≠ 0x20) ++ (if sfnName.getD 8 0 ≠ 0x20 then [0x2e] else []) ++
    (sfnName.drop 8).takeWhile (· ≠ 0x20)

/-- `get_crc` -/
def getCrc (name : List Byte) : Byte :=
  name.foldl (fun sum c => ((sum &&& 1) <<< 7) + (sum >>> 1) + c) 0

/-! ## Fields -/

/-- `sfn_is_last` -/
def sfnIsLast (e : Entry) : Bool := e 0 == 0x00

/-- `sfn_is_free` -/
def sfnIsFree (e : Entry) : Bool := e 0 == 0x00 || e 0 == 0xe5

/-- `sfn_is_lfn` -/
def sfnIsLfn (e : Entry) : Bool := e 11 == 0x0f

/-- `sfn_cluster` -/
def sfnCluster (e : Entry) : Nat := Bytes.read e 20 2 <<< 16 ||| Bytes.read e 26 2

def sfnName (e : Entry) : List Byte := Tape.window e 0 11

/-- The entry that `dir_add` makes for a file. -/
def putSfn (name : List Byte) (attr : Byte) (clust date time : Nat) (e : Entry) : Entry :=
  let e := Tape.splice e 0 (putSfnName name)
  let e := Bytes.write e 20 2 (clust >>> 16)
  let e := Bytes.write e 26 2 (clust &&& 0xffff)
  let e := pokes e [(11, attr), (12, 0), (13, 0)]
  let e := Bytes.write e 14 2 time
  let e := Bytes.write e 22 2 time
  let e := Bytes.write e 16 2 date
  let e := Bytes.write e 24 2 date
  let e := Bytes.write e 18 2 date
  Bytes.write e 28 4 0

/-! ## Long names -/

/-- `g_lfn_indices` -/
def lfnIndices : List Nat := [1, 3, 5, 7, 9, 14, 16, 18, 20, 22, 24, 28, 30]

/-- The two bytes for place `i` of a fragment. -/
def lfnPair (name : List Byte) (i : Nat) : Byte × Byte :=
  if i < name.length then (name.getD i 0, 0x00)
  else if i = name.length then (0x00, 0x00)
  else (0xff, 0xff)

/-- What `put_lfn_name_frag` writes, in its order. -/
def lfnCells (name : List Byte) : List (Nat × Byte) :=
  (lfnIndices.zipIdx).flatMap fun p =>
    [(p.1, (lfnPair name p.2).1), (p.1 + 1, (lfnPair name p.2).2)]

/-- `put_lfn_name_frag` -/
def putLfnNameFrag (name : List Byte) (e : Entry) : Entry := pokes e (lfnCells name)

/-- The entry that `dir_add` makes for fragment `i` of a name. -/
def putLfn (name : List Byte) (mask crc : Byte) (i : Nat) (e : Entry) : Entry :=
  pokes (putLfnNameFrag name e)
    [(11, 0x0f), (0, mask ||| BitVec.ofNat 8 i), (13, crc), (12, 0), (26, 0), (27, 0)]

/-- The name in a fragment, up to its end.  A byte 0xff cannot come before that. -/
def parseFrag (e : Entry) : List Nat → Option (List Byte)
  | [] => some []
  | i :: is =>
      if e i = 0xff then none
      else if e i = 0x00 then some []
      else (parseFrag e is).map (e i :: ·)

/-! ## What is stored -/

section Stored

variable {name : List Byte} {e : Entry} {mask crc attr c : Byte} {clust date time i : Nat}

theorem length_putSfnName (name : List Byte) : (putSfnName name).length = 11 := by
  have hbase := (List.takeWhile_sublist (· ≠ (0x2e : Byte)) (l := name.take 8)).length_le
  have htake := List.length_take_le 8 name
  rw [putSfnName]
  generalize (name.take 8).takeWhile (· ≠ (0x2e : Byte)) = base at hbase
  have hext := List.length_take_le 3
    (((name.drop base.length).dropWhile (· ≠ (0x2e : Byte))).drop 1)
  simp only [List.length_append, List.length_map, List.length_replicate]
  omega

/-- A short name has no byte that marks a free entry. -/
theorem sfnChar_ne (c : Byte) : sfnChar c ≠ 0x00 ∧ sfnChar c ≠ 0xe5 := by
  revert c
  decide

theorem putSfnName_ne (h : c ∈ putSfnName name) : c ≠ 0x00 ∧ c ≠ 0xe5 := by
  rw [putSfnName, List.mem_append, List.mem_append, List.mem_append] at h
  have hpad : ∀ n, c ∈ List.replicate n (0x20 : Byte) → c ≠ 0x00 ∧ c ≠ 0xe5 := fun n hc => by
    rw [List.eq_of_mem_replicate hc]
    decide
  rcases h with (h | h) | h | h
  · obtain ⟨d, _, rfl⟩ := List.mem_map.mp h
    exact sfnChar_ne d
  · exact hpad _ h
  · obtain ⟨d, _, rfl⟩ := List.mem_map.mp h
    exact sfnChar_ne d
  · exact hpad _ h

theorem nodup_lfnCells (name : List Byte) : ((lfnCells name).map Prod.fst).Nodup := by
  have hfst : (lfnCells name).map Prod.fst =
      [1, 2, 3, 4, 5, 6, 7, 8, 9, 10, 14, 15, 16, 17, 18, 19, 20, 21, 22, 23, 24, 25, 28, 29, 30,
        31] := rfl
  rw [hfst]
  decide

theorem lt_of_mem_lfnIndices (h : i ∈ lfnIndices) : 0 < i ∧ i ≠ 11 ∧ i ≠ 12 ∧ i ≠ 13 ∧
    i ≠ 26 ∧ i ≠ 27 ∧ i < 31 := by
  simp only [lfnIndices, List.mem_cons, List.not_mem_nil, or_false] at h
  omega

/-- The character in place `k` of a fragment. -/
theorem putLfn_lfnIndices {k : Nat} (hk : lfnIndices[k]? = some i) :
    putLfn name mask crc clust e i = (lfnPair name k).1 := by
  have hmem := lt_of_mem_lfnIndices (List.mem_of_getElem? hk)
  rw [putLfn, Tape.pokes_of_notMem, putLfnNameFrag]
  · refine Tape.pokes_of_mem (nodup_lfnCells name) ?_
    rw [lfnCells, List.mem_flatMap]
    exact ⟨(i, k), List.mem_zipIdx_iff_getElem?.mpr hk, List.mem_cons_self⟩
  · simp only [List.map_cons, List.map_nil, List.mem_cons, List.not_mem_nil, or_false]
    omega

theorem parseFrag_putLfn_aux (hname : ∀ c ∈ name, c ≠ 0x00 ∧ c ≠ 0xff) {is : List Nat} {k : Nat}
    (hdrop : lfnIndices.drop k = is) (hk : k ≤ name.length) :
    parseFrag (putLfn name mask crc clust e) is = some ((name.drop k).take is.length) := by
  induction is generalizing k with
  | nil => simp [parseFrag]
  | cons i is ih =>
      have hget : lfnIndices[k]? = some i := by
        rw [← List.head?_drop, hdrop]
        rfl
      have hrest : lfnIndices.drop (k + 1) = is := by
        rw [← List.tail_drop, hdrop]
        rfl
      rw [parseFrag, putLfn_lfnIndices hget, lfnPair]
      by_cases hlt : k < name.length
      · obtain ⟨hzero, hff⟩ := hname _ (List.getElem_mem hlt)
        rw [if_pos hlt, List.getD_eq_getElem _ _ hlt]
        dsimp only
        rw [if_neg hff, if_neg hzero, ih hrest hlt, List.drop_eq_getElem_cons hlt]
        rfl
      · obtain rfl : k = name.length := by omega
        rw [if_neg hlt, if_pos rfl]
        dsimp only
        rw [if_neg (by decide), if_pos rfl, List.drop_length]
        rfl

/-- The characters of a fragment are read back, if none of them is 0x00 or 0xff. -/
theorem parseFrag_putLfn (hname : ∀ c ∈ name, c ≠ 0x00 ∧ c ≠ 0xff) (hlen : name.length ≤ 13) :
    parseFrag (putLfn name mask crc clust e) lfnIndices = some name := by
  rw [parseFrag_putLfn_aux hname (List.drop_zero) (Nat.zero_le _), List.drop_zero,
    List.take_of_length_le]
  exact hlen

@[simp] theorem putLfn_seq : putLfn name mask crc i e 0 = mask ||| BitVec.ofNat 8 i :=
  Tape.pokes_of_mem (by simp) (by simp)

@[simp] theorem putLfn_attr : putLfn name mask crc i e 11 = 0x0f :=
  Tape.pokes_of_mem (by simp) (by simp)

@[simp] theorem putLfn_crc : putLfn name mask crc i e 13 = crc :=
  Tape.pokes_of_mem (by simp) (by simp)

/-- The numbers of a new entry, behind its name. -/
theorem putSfn_apply (hi : i < 14) :
    putSfn name attr clust date time e i =
      pokes (Tape.splice e 0 (putSfnName name)) [(11, attr), (12, 0), (13, 0)] i := by
  simp only [putSfn]
  rw [Bytes.write_outside (by omega), Bytes.write_outside (by omega),
    Bytes.write_outside (by omega), Bytes.write_outside (by omega),
    Bytes.write_outside (by omega), Bytes.write_outside (by omega)]
  have hfar : ∀ b b' : Entry, b i = b' i →
      pokes b [(11, attr), (12, (0 : Byte)), (13, (0 : Byte))] i =
        pokes b' [(11, attr), (12, (0 : Byte)), (13, (0 : Byte))] i := by
    intro b b' hb
    simp only [pokes, List.foldl_cons, List.foldl_nil, Function.update_apply, hb]
  refine hfar _ _ ?_
  rw [Bytes.write_outside (by omega), Bytes.write_outside (by omega)]

@[simp] theorem putSfn_attr : putSfn name attr clust date time e 11 = attr := by
  rw [putSfn_apply (by omega)]
  exact Tape.pokes_of_mem (by simp) (by simp)

@[simp] theorem sfnName_putSfn :
    sfnName (putSfn name attr clust date time e) = putSfnName name := by
  have hlen := length_putSfnName name
  have hsplice : Tape.window (Tape.splice e 0 (putSfnName name)) 0 (putSfnName name).length =
      putSfnName name := Tape.window_splice
  rw [hlen] at hsplice
  refine (Tape.window_congr fun i hi => ?_).trans hsplice
  rw [putSfn_apply (by omega), Tape.pokes_of_notMem (by simp; omega)]

end Stored

end Demoos.Fat
