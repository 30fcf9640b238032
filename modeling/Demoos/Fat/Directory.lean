import Demoos.Fat.File

/-!
# Directories on the medium

A directory is a chain of clusters full of entries.  A handle `Dir` goes through them with
`dir_next`, which takes the end of a cluster from the number of the sector.  The entries of a
name come one behind the other, and the name that they spell is gathered in `g_buf`.

An entry is looked at and changed in the buffer of the volume, at the place of the handle
(`dir_ptr`).  `DirState` has the handle that a function works on, next to the variables that all
of them share.
-/

namespace Demoos.Fat

open Program
open Tape (window)
open Function (update update_self update_of_ne)

/-- `Dir` -/
structure Dir where
  -- whether `fat` is set
  fat : Bool
  sclust : Nat
  clust : Nat
  sect : Nat
  idx : Nat
deriving DecidableEq, Repr

/-- `Loc` -/
structure Loc where
  sect : Nat
  idx : Nat
deriving DecidableEq, Repr

/-- A handle, and the variables `g_buf`, `g_len` and `g_crc`. -/
structure DirState where
  dir : Dir
  buf : Nat → Byte
  len : Nat
  crc : Byte

abbrev DirM := Program FatError (Volume × DirState)

def getDir : DirM Dir := do
  let s ← get
  pure s.2.dir

def setDir (f : Dir → Dir) : DirM Unit := modify fun s => (s.1, { s.2 with dir := f s.2.dir })

def setShared (f : DirState → DirState) : DirM Unit := modify fun s => (s.1, f s.2)

section Meets

variable {s : Volume × DirState} {E : Stop FatError → Volume × DirState → Prop}

@[simp] theorem meets_getDir {Q : Dir → Volume × DirState → Prop} :
    Meets getDir s Q E ↔ Q s.2.dir s := .rfl

@[simp] theorem meets_setDir {f : Dir → Dir} {Q : PUnit → Volume × DirState → Prop} :
    Meets (setDir f) s Q E ↔ Q ⟨⟩ (s.1, { s.2 with dir := f s.2.dir }) := .rfl

@[simp] theorem meets_setShared {f : DirState → DirState} {Q : PUnit → Volume × DirState → Prop} :
    Meets (setShared f) s Q E ↔ Q ⟨⟩ (s.1, f s.2) := .rfl

end Meets

/-! ## Entries in the buffer -/

/-- The entry at `idx` of a sector. -/
def entryAt (buf : Sector) (idx : Nat) : Entry := fun i => if i < 32 then buf (idx + i) else 0

/-- Change the entry at `idx` of a sector. -/
def editEntry (idx : Nat) (f : Entry → Entry) (buf : Sector) : Sector := fun i =>
  if idx ≤ i ∧ i < idx + 32 then f (entryAt buf idx) (i - idx) else buf i

/-- `update_buf(dir->fat, dir->sect)` -/
def updateDir : DirM Unit := do
  let d ← getDir
  onFst (updateBuf d.sect)

/-- The entry that `dir_ptr` points to. -/
def dirPtr : DirM Entry := do
  let s ← get
  pure (entryAt s.1.disk.value s.2.dir.idx)

/-- Change the entry that `dir_ptr` points to. -/
def editDir (f : Entry → Entry) : DirM Unit := do
  let d ← getDir
  onFst (edit (editEntry d.idx f))

@[simp] theorem meets_dirPtr {s : Volume × DirState} {Q : Entry → Volume × DirState → Prop}
    {E : Stop FatError → Volume × DirState → Prop} :
    Meets dirPtr s Q E ↔ Q (entryAt s.1.disk.value s.2.dir.idx) s := .rfl

/-! ## Moving -/

/-- The loop of `clust_clear`. -/
def clearSects : Nat → Nat → FatM Unit
  | 0, _ => pure ()
  | n + 1, sect => do
    modify fun v => { v with disk.dirty := true, disk.key := sect }
    syncBuf
    clearSects n ((sect + 1) % 2 ^ 32)

/-- `clust_clear` -/
def clustClear (g : Geometry) (clust : Nat) : FatM Unit := do
  syncBuf
  modify fun v => { v with disk.value := fun _ => 0 }
  clearSects (2 ^ g.clustShift) (clustToSect g clust)

/-- `dir_at_clust` -/
def dirAtClust (g : Geometry) (clust : Nat) : DirM Unit :=
  setDir fun d => { d with clust := clust, sect := clustToSect g clust, idx := 0 }

/-- `dir_enter` -/
def dirEnter (g : Geometry) (clust : Nat) : DirM Unit := do
  let clust := if clust = 0 then g.rootClust else clust
  setDir fun d => { d with sclust := clust }
  dirAtClust g clust

/-- `dir_next` -/
def dirNext (g : Geometry) : DirM Unit := do
  setDir fun d => { d with idx := (d.idx + 32) % 2 ^ 16 }
  let d ← getDir
  if d.idx < 512 then pure ()
  else do
    setDir fun d => { d with idx := 0, sect := (d.sect + 1) % 2 ^ 32 }
    let d ← getDir
    if d.sect &&& g.clustMsk ≠ 0 then pure ()
    else do
      let r ← onFst (getFat g d.clust)
      if r.2 = .bad ∨ r.2 = .free then fail .broken
      else if r.2 = .last then fail .eof
      else dirAtClust g r.1

/-- `dir_advance` -/
def dirAdvance (g : Geometry) : Nat → DirM Unit
  | 0 => pure ()
  | cnt + 1 => do
    dirNext g
    dirAdvance g cnt

/-- `dir_next_stretch`, with what is in `next` before it is set. -/
def dirNextStretch (g : Geometry) (fuel out : Nat) : DirM Unit := do
  match ← attempt (dirNext g) with
  | .ok _ => pure ()
  | .error e =>
      if e = .eof then do
        let d ← getDir
        let next ← onFst (stretchChain g fuel d.clust out)
        dirAtClust g next
        onFst (clustClear g next)
      else fail e

/-! ## Reading names -/

/-- Put the characters of a fragment into `g_buf` from `k` on. -/
def readFrag (e : Entry) : List Nat → Nat → DirM Unit
  | [], _ => pure ()
  | i :: is, k =>
      if e i = 0xff then fail .broken
      else if e i = 0x00 then pure ()
      else do
        setShared fun s => { s with buf := update s.buf k (e i), len := s.len + 1 }
        readFrag e is (k + 1)

/-- The loop of `parse_lfn_name`. -/
def parseFrags (g : Geometry) : Nat → DirM Unit
  | 0 => pure ()
  | cnt + 1 => do
    let e ← dirPtr
    let s ← get
    if e 11 ≠ 0x0f ∨ e 13 ≠ s.2.crc then fail .broken
    else do
      readFrag e lfnIndices (13 * cnt)
      dirNext g
      updateDir
      parseFrags g cnt

/-- `parse_lfn_name` -/
def parseLfnName (g : Geometry) : DirM Unit := do
  updateDir
  let e ← dirPtr
  setShared fun s => { s with crc := e 13, len := 0 }
  if e 0 &&& 0x40 = 0 then fail .broken
  else if 20 < (e 0 &&& 0x1f).toNat then fail .broken
  else do
    parseFrags g (e 0 &&& 0x1f).toNat
    let s ← get
    if s.2.len ≤ 255 then pure () else fail .broken

/-- What `dir_search` compares the name with. -/
def entryNamed (g : Geometry) (name : List Byte) (e : Entry) : DirM Bool :=
  if sfnIsLfn e then do
    parseLfnName g
    let e ← dirPtr
    let s ← get
    if sfnIsFree e ∨ sfnIsLfn e ∨ s.2.crc ≠ getCrc (sfnName e) then fail .broken
    else pure (decide (s.2.len = name.length ∧ window s.2.buf 0 name.length = name))
  else pure (decide (putSfnName name = sfnName e))

/-- One round of `dir_search`. -/
def searchStep (g : Geometry) (name : List Byte) : DirM (Unit ⊕ Loc) := do
  updateDir
  let e ← dirPtr
  if sfnIsLast e then fail .eof
  else if sfnIsFree e then do
    dirNext g
    pure (.inl ())
  else do
    let d ← getDir
    if ← entryNamed g name e then pure (.inr ⟨d.sect, d.idx⟩)
    else do
      dirNext g
      pure (.inl ())

/-- `dir_search`: the first entry of the name. -/
def dirSearch (g : Geometry) (fuel : Nat) (name : List Byte) : DirM Loc := do
  let d ← getDir
  dirAtClust g d.sclust
  loop (fun _ => searchStep g name) fuel ()

/-- `DirInfo` -/
structure DirInfo where
  created : Timestamp
  modified : Timestamp
  size : Nat
  attr : Byte
  name : List Byte
deriving DecidableEq, Repr

/-- What `fat_dir_read` tells of an entry. -/
def dirInfo (name : List Byte) (e : Entry) : DirInfo where
  created := decodeTimestamp (Bytes.read e 16 2) (Bytes.read e 14 2)
  modified := decodeTimestamp (Bytes.read e 24 2) (Bytes.read e 22 2)
  size := Bytes.read e 28 4
  attr := e 11
  name := name

/-- Get the name of an entry into `g_buf`. -/
def readName (g : Geometry) (e : Entry) : DirM Unit :=
  if sfnIsLfn e then do
    parseLfnName g
    updateDir
    let e ← dirPtr
    let s ← get
    if sfnIsFree e ∨ s.2.crc ≠ getCrc (sfnName e) then fail .broken else pure ()
  else
    let name := parseSfnName (sfnName e)
    setShared fun s => { s with buf := Tape.splice s.buf 0 name, len := name.length }

/-- One round of `fat_dir_read`. -/
def dirReadStep (g : Geometry) : DirM (Unit ⊕ DirInfo) := do
  updateDir
  let e ← dirPtr
  if sfnIsLast e then fail .eof
  else if sfnIsFree e then do
    dirNext g
    pure (.inl ())
  else do
    readName g e
    let e ← dirPtr
    let s ← get
    pure (.inr (dirInfo (window s.2.buf 0 s.2.len) e))

/-- `fat_dir_read` -/
def dirRead (g : Geometry) (fuel : Nat) : DirM DirInfo := do
  let d ← getDir
  if !d.fat then fail .param else loop (fun _ => dirReadStep g) fuel ()

/-- `fat_dir_next` -/
def fatDirNext (g : Geometry) : DirM Unit := do
  let d ← getDir
  if !d.fat then fail .param else dirNext g

/-- `fat_dir_rewind` -/
def dirRewind (g : Geometry) : DirM Unit := do
  let d ← getDir
  if !d.fat then fail .param else dirAtClust g d.sclust

/-! ## Removing and adding entries -/

/-- Set the handle to a place. -/
def rewindTo (g : Geometry) (loc : Loc) : DirM Unit :=
  setDir fun d => { d with clust := sectToClust g loc.sect, sect := loc.sect, idx := loc.idx }

/-- One round of `remove_entries`, with the place of the last entry to remove. -/
def removeEntriesStep (g : Geometry) (last : Loc) : DirM (Unit ⊕ Unit) := do
  updateDir
  editDir fun e => update e 0 0xe5
  let d ← getDir
  if d.sect = last.sect ∧ d.idx = last.idx then pure (.inr ())
  else do
    dirNext g
    pure (.inl ())

/-- `remove_entries` -/
def removeEntries (g : Geometry) (fuel : Nat) (loc : Loc) : DirM Unit := do
  let d ← getDir
  rewindTo g loc
  loop (fun _ => removeEntriesStep g ⟨d.sect, d.idx⟩) fuel ()

/-- The variables `cnt`, `eod`, and `sect` and `idx` of `dir_add`. -/
structure FreeRun where
  cnt : Nat
  eod : Bool
  loc : Loc

/-- What `dir_add` makes of the entry at a place. -/
def FreeRun.visit (r : FreeRun) (e : Entry) (loc : Loc) : FreeRun :=
  let free := r.eod || sfnIsFree e
  { cnt := if free then r.cnt + 1 else 0
    eod := r.eod || sfnIsLast e
    loc := if free ∧ r.cnt = 0 then loc else r.loc }

/-- One round of the search of `dir_add` for `need` free entries in a row. -/
def findRunStep (g : Geometry) (fuel out need : Nat) (r : FreeRun) :
    DirM (FreeRun ⊕ FreeRun) := do
  if r.cnt < need then do
    updateDir
    let e ← dirPtr
    let d ← getDir
    dirNextStretch g fuel out
    pure (.inl (r.visit e ⟨d.sect, d.idx⟩))
  else pure (.inr r)

/-- Write fragment `i` of the name, and those in front of it behind. -/
def putFrags (g : Geometry) (name : List Byte) (crc : Byte) : Nat → Byte → DirM Unit
  | 0, _ => pure ()
  | i + 1, mask => do
    updateDir
    editDir (putLfn ((name.drop (13 * i)).take 13) mask crc (i + 1))
    dirNext g
    putFrags g name crc i 0

/-- The count of fragments. -/
def lfnCount (name : List Byte) : Nat := (name.length + 12) / 13

/-- Write the entries of a name at a place. -/
def putEntries (g : Geometry) (ts : Timestamp) (name : List Byte) (attr : Byte) (clust : Nat)
    (loc : Loc) : DirM Unit := do
  rewindTo g loc
  putFrags g name (getCrc (putSfnName name)) (lfnCount name) 0x40
  updateDir
  editDir (putSfn name attr clust (encodeTimestamp ts).1 (encodeTimestamp ts).2)

/-- `dir_add` -/
def dirAdd (g : Geometry) (fuel out : Nat) (ts : Timestamp) (name : List Byte) (attr : Byte)
    (clust : Nat) : DirM Unit := do
  if name.length = 0 ∨ 255 < name.length then fail .param
  else do
    let d ← getDir
    dirEnter g d.sclust
    let r ← loop (findRunStep g fuel out (lfnCount name + 1)) fuel ⟨0, false, ⟨0, 0⟩⟩
    (if r.eod then do
        updateDir
        editDir fun e => update e 0 0x00
      else pure ())
    putEntries g ts name attr clust r.loc

end Demoos.Fat
