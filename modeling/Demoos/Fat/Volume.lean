import Mathlib.Data.Nat.Bitwise
import Demoos.Lib.Bytes
import Demoos.Lib.Program
import Demoos.Lib.WriteBack

/-!
# A mounted FAT32 volume

`libs/fat32/fat.c` reaches the medium one sector at a time, through one buffer that is
written back late.  `disk.store` is the medium, and `disk.key`, `disk.value` and `disk.dirty`
are the fields `sect` and `buf` and the flag `FAT_BUF_DIRTY` of `Fat`.  The functions over the
medium are `DiskOps`, whose answers are listed in advance; a list that has run out answers
`done`.

What mounting sets for good is the geometry.  `Volume.item` reads an entry of a table of
clusters in the view of the buffer, so it is what the library will find, flushed or not.
-/

namespace Demoos.Fat

open WriteBack (Cache)
open Program
open Function (update update_self update_of_ne)

abbrev Sector := Nat → BitVec 8

/-- The errors of `fat_types.h`.  `stretch_chain` can return a byte of flags in the place of
one. -/
inductive FatError where
  | noFat
  | broken
  | io
  | param
  | path
  | eof
  | denied
  | full
  | flags (byte : Nat)
deriving DecidableEq, Repr

/-- The answer of the medium to one transfer. -/
inductive Answer where
  | done
  | refused
  -- the target has changed all the same
  | torn (target : Sector)

/-- The fields of `Fat` that only `fat_mount` sets. -/
structure Geometry where
  clustShift : Nat
  clustMsk : Nat
  clustCnt : Nat
  infoSect : Nat
  fatSect0 : Nat
  fatSect1 : Nat
  dataSect : Nat
  rootClust : Nat
deriving DecidableEq, Repr

/-- The medium and the fields of `Fat` that change. -/
structure Volume where
  disk : Cache Nat Sector
  reads : List Answer
  writes : List Answer
  infoDirty : Bool
  lastUsed : Nat
  freeCnt : Nat
  -- the byte that `flags` of `stretch_chain` has before it is set
  stale : Nat

abbrev FatM := Program FatError Volume

/-! ## The buffer -/

/-- `ops.read`: whether it succeeds, and the buffer after it. -/
def opsRead (buf : Sector) (sect : Nat) : FatM (Bool × Sector) := modifyGet fun v =>
  (match v.reads.head?.getD .done with
    | .done => (true, v.disk.store sect)
    | .refused => (false, buf)
    | .torn target => (false, target),
  { v with reads := v.reads.tail })

/-- `ops.write` -/
def opsWrite (buf : Sector) (sect : Nat) : FatM Bool := modifyGet fun v =>
  match v.writes.head?.getD .done with
  | .done => (true, { v with disk := v.disk.write sect buf, writes := v.writes.tail })
  | .refused => (false, { v with writes := v.writes.tail })
  | .torn target => (false, { v with disk := v.disk.write sect target, writes := v.writes.tail })

/-- Return `FAT_ERR_IO` unless the transfer succeeded. -/
def transferred (ok : Bool) : FatM Unit := if ok then pure () else fail .io

/-- `sync_buf` -/
def syncBuf : FatM Unit := do
  let v ← get
  if v.disk.dirty then do
    transferred (← opsWrite v.disk.value v.disk.key)
    modify fun v => { v with disk.dirty := false }
  else pure ()

/-- `update_buf` -/
def updateBuf (sect : Nat) : FatM Unit := do
  let v ← get
  if v.disk.key ≠ sect then do
    syncBuf
    let w ← get
    let r ← opsRead w.disk.value sect
    modify fun v => { v with disk.value := r.2 }
    transferred r.1
    modify fun v => { v with disk.key := sect }
  else pure ()

/-- Change the buffer and mark it dirty. -/
def edit (f : Sector → Sector) : FatM Unit := modify fun v =>
  { v with disk := v.disk.put (f v.disk.value) }

/-- The sector of the file system info with `next_free` and `free_cnt` set. -/
def putInfo (nextFree freeCnt : Nat) (buf : Sector) : Sector :=
  Bytes.write (Bytes.write buf 492 4 nextFree) 488 4 freeCnt

/-- `sync_fs` -/
def syncFs (g : Geometry) : FatM Unit := do
  syncBuf
  let v ← get
  if v.infoDirty then do
    updateBuf g.infoSect
    edit (putInfo v.lastUsed v.freeCnt)
    syncBuf
    modify fun v => { v with infoDirty := false }
  else pure ()

/-! ## The table of clusters -/

/-- The values of `CLUST_FREE`, `CLUST_BAD`, `CLUST_USED | CLUST_LAST` and `CLUST_USED`, the
flags that `get_fat` gives. -/
inductive ClustFlags where
  | free
  | bad
  | last
  | used
deriving DecidableEq, Repr

def ClustFlags.byte : ClustFlags → Nat
  | .free => 0x01
  | .bad => 0x08
  | .last => 0x02 ||| 0x04
  | .used => 0x02

/-- The flags of a value, if it is not broken. -/
def clustFlags (g : Geometry) (val : Nat) : Option ClustFlags :=
  if val = 0 then some .free
  else if val = 0x0ffffff7 then some .bad
  else if val ≥ 0x0ffffff8 then some .last
  else if val ≥ 2 ∧ val < g.clustCnt then some .used
  else none

/-- The sector of a table that has the entry of a cluster. -/
def itemSect (fatSect clust : Nat) : Nat := (fatSect + clust / 128) % 2 ^ 32

/-- The entry of a cluster in its sector, with its upper nibble. -/
def itemAt (buf : Sector) (clust : Nat) : Nat := Bytes.read buf (4 * (clust % 128)) 4

/-- `get_fat` -/
def getFat (g : Geometry) (clust : Nat) : FatM (Nat × ClustFlags) := do
  updateBuf (itemSect g.fatSect0 clust)
  let v ← get
  let val := itemAt v.disk.value clust &&& 0x0fffffff
  match clustFlags g val with
  | some flags => pure (val, flags)
  | none => fail .broken

/-- Store an entry, and keep the upper nibble. -/
def putItem (clust val : Nat) (buf : Sector) : Sector :=
  Bytes.write buf (4 * (clust % 128)) 4
    ((itemAt buf clust &&& 0xf0000000) ||| (val &&& 0x0fffffff))

/-- `put_fat2` -/
def putFat2 (fatSect clust val : Nat) : FatM Unit := do
  updateBuf (itemSect fatSect clust)
  edit (putItem clust val)

/-- `put_fat` -/
def putFat (g : Geometry) (clust val : Nat) : FatM Unit := do
  -- the mirror first
  (if g.fatSect1 ≠ 0 then putFat2 g.fatSect1 clust val else pure ())
  putFat2 g.fatSect0 clust val

/-! ## Clusters and sectors -/

/-- `sect_to_clust` -/
def sectToClust (g : Geometry) (sect : Nat) : Nat :=
  (((sect + 2 ^ 32 - g.dataSect) % 2 ^ 32) >>> g.clustShift + 2) % 2 ^ 32

/-- `clust_to_sect` -/
def clustToSect (g : Geometry) (clust : Nat) : Nat :=
  (((clust + 2 ^ 32 - 2) % 2 ^ 32) <<< g.clustShift + g.dataSect) % 2 ^ 32

end Demoos.Fat
