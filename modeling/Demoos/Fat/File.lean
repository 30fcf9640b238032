import Demoos.Fat.Alloc
import Demoos.Fat.Entry

/-!
# Open files

A file has a buffer of its own for the sector of its cursor, which `fat_file_seek` moves: it
follows the chain of the file, and it makes the chain longer at its end, for a reader as well
as for a writer.  `ops.read` and `ops.write` reach the sectors of a file without the buffer of
the volume.

What a function hands back through `bytes` and the memory of the caller is part of its result
here, next to the error that it returns.
-/

namespace Demoos.Fat

open Program
open Tape (window)
open Function (update update_self update_of_ne)

/-- The flags of a file, those of `fat_file_open` and the internal ones. -/
structure FileFlags where
  write : Bool
  read : Bool
  accessed : Bool
  modified : Bool
  -- `FAT_FILE_DIRTY`
  dirty : Bool
deriving DecidableEq, Repr

/-- `File` -/
structure File where
  -- whether `fat` is set
  fat : Bool
  dirSect : Nat
  sclust : Nat
  clust : Nat
  sect : Nat
  size : Nat
  offset : Nat
  dirIdx : Nat
  flags : FileFlags
  buf : Sector

inductive Whence where
  | start
  | curr
  | «end»
deriving DecidableEq, Repr

abbrev FileM := Program FatError (Volume × File)

def getFile : FileM File := do
  let s ← get
  pure s.2

def setFile (f : File → File) : FileM Unit := modify fun s => (s.1, f s.2)

@[simp] theorem meets_getFile {s : Volume × File} {Q : File → Volume × File → Prop}
    {E : Stop FatError → Volume × File → Prop} : Meets getFile s Q E ↔ Q s.2 s := .rfl

@[simp] theorem meets_setFile {s : Volume × File} {f : File → File}
    {Q : PUnit → Volume × File → Prop} {E : Stop FatError → Volume × File → Prop} :
    Meets (setFile f) s Q E ↔ Q ⟨⟩ (s.1, f s.2) := .rfl

/-- `clust_size` -/
def Geometry.clustSize (g : Geometry) : Nat := 512 <<< g.clustShift

/-- The sector of a cluster that has the offset. -/
def sectAt (g : Geometry) (clust off : Nat) : Nat :=
  (clustToSect g clust + ((off / 512) &&& g.clustMsk)) % 2 ^ 32

/-! ## `fat_file_seek` -/

/-- One cluster further on the chain, which grows at its end. -/
def followClust (g : Geometry) (fuel : Nat) : FileM Unit := do
  let f ← getFile
  let r ← onFst (getFat g f.clust)
  if r.2 = .bad ∨ r.2 = .free then fail .broken
  else do
    let next ← (if r.2 = .last then onFst (stretchChain g fuel f.clust r.1) else pure r.1)
    setFile fun f => { f with clust := next }

def followChain (g : Geometry) (fuel : Nat) : Nat → FileM Unit
  | 0 => pure ()
  | n + 1 => do
    followClust g fuel
    followChain g fuel n

/-- Get the sector of the cursor into the buffer, if it is another one than `ssect`. -/
def moveBuf (ssect : Nat) : FileM Unit := do
  let f ← getFile
  if f.sect ≠ ssect then do
    (if f.flags.dirty then do
        onFst (do transferred (← opsWrite f.buf ssect))
        setFile fun f => { f with flags.dirty := false }
      else pure ())
    let r ← onFst (opsRead f.buf f.sect)
    setFile fun f => { f with buf := r.2 }
    onFst (transferred r.1)
  else pure ()

/-- The offset that a seek begins from. -/
def Whence.base (f : File) : Whence → Nat
  | .start => 0
  | .curr => f.offset
  | .end => f.size

/-- The walk of `fat_file_seek` to an offset that it has accepted. -/
def seekTo (g : Geometry) (fuel off : Nat) : FileM Unit := do
  let f ← getFile
  let dstClust := off / g.clustSize
  let srcClust := f.offset / g.clustSize
  (if dstClust < srcClust then
      setFile fun f => { f with clust := f.sclust, sect := clustToSect g f.sclust, offset := 0 }
    else pure ())
  followChain g fuel (dstClust - (if dstClust < srcClust then 0 else srcClust))
  setFile fun f => { f with sect := sectAt g f.clust off, offset := off }
  moveBuf f.sect

/-- `fat_file_seek` -/
def fileSeek (g : Geometry) (fuel : Nat) (offset : Int) (seek : Whence) : FileM Unit := do
  let f ← getFile
  if !f.fat then fail .param
  else do
    let off64 : Int := seek.base f + offset
    if off64 < 0 ∨ off64 > 0xffffffff then fail .eof
    else seekTo g fuel off64.toNat

/-! ## `fat_file_read` and `fat_file_write` -/

/-- One round of `fat_file_read`, with the bytes that are still to come and those read. -/
def readStep (g : Geometry) (fuel : Nat) (i : Nat × List (BitVec 8)) :
    FileM ((Nat × List (BitVec 8)) ⊕ (List (BitVec 8) × Option FatError)) := do
  let f ← getFile
  if i.1 ≠ 0 ∧ f.offset < f.size then do
    let idx := f.offset % 512
    let cnt := min i.1 (min (512 - idx) (f.size - f.offset))
    let bytes := i.2 ++ window f.buf idx cnt
    match ← attempt (fileSeek g fuel cnt .curr) with
    | .ok _ => pure (.inl (i.1 - cnt, bytes))
    | .error e => pure (.inr (bytes, some e))
  else pure (.inr (i.2, none))

/-- `fat_file_read`: the bytes, and the error. -/
def fileRead (g : Geometry) (fuel len : Nat) : FileM (List (BitVec 8) × Option FatError) := do
  let f ← getFile
  if !f.fat then pure ([], some .param)
  else if !f.flags.read then pure ([], some .denied)
  else do
    setFile fun f => { f with flags.accessed := true }
    loop (readStep g fuel) (len + 1) (len, [])

/-- One round of `fat_file_write`, with the bytes that are still to come and the count of those
written.  An error of `fat_file_seek` ends the loop, and nothing else. -/
def writeStep (g : Geometry) (fuel : Nat) (i : List (BitVec 8) × Nat) :
    FileM ((List (BitVec 8) × Nat) ⊕ Nat) := do
  let f ← getFile
  if i.1 ≠ [] then do
    let idx := f.offset % 512
    let cnt := min i.1.length (512 - idx)
    setFile fun f =>
      { f with buf := Tape.splice f.buf idx (i.1.take cnt), flags.dirty := true }
    match ← attempt (fileSeek g fuel cnt .curr) with
    | .ok _ => pure (.inl (i.1.drop cnt, i.2 + cnt))
    | .error _ => pure (.inr (i.2 + cnt))
  else pure (.inr i.2)

/-- `fat_file_write`: the count of bytes, and the error. -/
def fileWrite (g : Geometry) (fuel : Nat) (src : List (BitVec 8)) :
    FileM (Nat × Option FatError) := do
  let f ← getFile
  if !f.fat then pure (0, some .param)
  else if !f.flags.write then pure (0, some .denied)
  else do
    setFile fun f => { f with flags.modified := true, flags.accessed := true }
    let bytes ← loop (writeStep g fuel) (src.length + 1) (src, 0)
    setFile fun f => { f with size := if f.offset > f.size then f.offset else f.size }
    pure (bytes, none)

/-! ## `fat_file_sync` -/

/-- What `fat_file_sync` changes in the entry of the file, within its sector. -/
def putSync (f : File) (ts : Timestamp) (buf : Sector) : Sector :=
  let stamp := encodeTimestamp ts
  let buf := if f.flags.accessed then Bytes.write buf (f.dirIdx + 18) 2 stamp.1 else buf
  if f.flags.modified then
    let buf := update buf (f.dirIdx + 11) (buf (f.dirIdx + 11) ||| 0x20)
    let buf := Bytes.write buf (f.dirIdx + 28) 4 f.size
    let buf := Bytes.write buf (f.dirIdx + 24) 2 stamp.1
    Bytes.write buf (f.dirIdx + 22) 2 stamp.2
  else buf

/-- `fat_file_sync` -/
def fileSync (g : Geometry) (ts : Timestamp) : FileM Unit := do
  let f ← getFile
  if !f.fat then fail .param
  else do
    onFst (do transferred (← opsWrite f.buf f.sect))
    (if f.flags.accessed || f.flags.modified then
        onFst (do updateBuf f.dirSect; edit (putSync f ts))
      else pure ())
    onFst (syncFs g)
    setFile fun f => { f with flags.accessed := false, flags.modified := false }

/-- `fat_file_close` -/
def fileClose (g : Geometry) (ts : Timestamp) : FileM Unit := do
  let f ← getFile
  if !f.fat then fail .param else fileSync g ts

end Demoos.Fat
