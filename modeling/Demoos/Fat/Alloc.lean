import Mathlib.Data.Finset.Range
import Demoos.Fat.Table
import Demoos.Lib.Chains

/-!
# Chains of clusters

`remove_chain` frees a chain and `stretch_chain` takes a free cluster, for a new chain or
behind the end of one.  The scan for a free cluster goes round from `last_used`, which it does
not look at itself.  If `get_fat` fails in the scan, `stretch_chain` returns its `flags`, the
ones of the entry before or, in the first round for a new chain, an uninitialised byte; if
that byte is zero the caller takes it for success, with the cluster that it had.

The cells of the table are what the library makes of the entries, and a file or a directory is
a chain of them (`Chains.Chain`).
-/

namespace Demoos.Fat

open Program
open Chains (Cell Chain Apart freeIn)
open Function (update update_self update_of_ne)

/-! ## The functions -/

/-- One round of `remove_chain`. -/
def removeStep (g : Geometry) (clust : Nat) : FatM (Nat ⊕ Unit) := do
  let r ← getFat g clust
  if r.2 = .bad ∨ r.2 = .free then fail .broken
  else do
    putFat g clust 0
    modify fun v => { v with freeCnt := (v.freeCnt + 1) % 2 ^ 32 }
    pure (if r.2 = .last then .inr () else .inl r.1)

/-- `remove_chain` -/
def removeChain (g : Geometry) (fuel clust : Nat) : FatM Unit := do
  modify fun v => { v with infoDirty := true }
  loop (removeStep g) fuel clust
  syncFs g

/-- The cluster behind `clust` in the circle of all clusters. -/
def advance (g : Geometry) (clust : Nat) : Nat :=
  if (clust + 1) % 2 ^ 32 ≥ g.clustCnt then 2 else (clust + 1) % 2 ^ 32

/-- One round of the scan of `stretch_chain`, with the cluster and the flags before it.  The
scan ends with a free cluster, or with the return of flags that are `FAT_ERR_NONE`. -/
def scanStep (g : Geometry) (lastUsed : Nat) (i : Nat × Nat) :
    FatM ((Nat × Nat) ⊕ Option Nat) := do
  let clust := advance g i.1
  if clust = lastUsed then fail .full
  else do
    match ← attempt (getFat g clust) with
    | .error _ => if i.2 = 0 then pure (.inr none) else fail (.flags i.2)
    | .ok r => pure (if r.2 = .free then .inr (some clust) else .inl (clust, r.2.byte))

/-- What `stretch_chain` does with the cluster that it has found. -/
def takeClust (g : Geometry) (prev clust : Nat) : FatM Nat := do
  putFat g clust 0x0fffffff
  (if prev ≠ 0 then putFat g prev clust else pure ())
  modify fun v => { v with lastUsed := clust, freeCnt := (v.freeCnt + 2 ^ 32 - 1) % 2 ^ 32 }
  syncFs g
  pure clust

/-- The look of `stretch_chain` at the cluster next to the end of the chain: a free cluster, or
the flags that the scan begins with. -/
def stretchNext (g : Geometry) (prev : Nat) : FatM (Nat ⊕ Nat) := do
  if prev ≠ 0 then do
    let r ← getFat g (advance g prev)
    pure (if r.2 = .free then .inl (advance g prev) else .inr r.2.byte)
  else do
    let v ← get
    pure (.inr v.stale)

/-- The search of `stretch_chain`, where `none` is the return of flags that are
`FAT_ERR_NONE`. -/
def findClust (g : Geometry) (fuel prev : Nat) : FatM (Option Nat) := do
  match ← stretchNext g prev with
  | .inl clust => pure (some clust)
  | .inr flags => do
    let v ← get
    loop (scanStep g v.lastUsed) fuel (v.lastUsed, flags)

/-- `stretch_chain`, where the caller has `out` in the place of the new cluster. -/
def stretchChain (g : Geometry) (fuel clust out : Nat) : FatM Nat := do
  modify fun v => { v with infoDirty := true }
  match ← findClust g fuel clust with
  | none => pure out
  | some c => takeClust g clust c

/-- `create_chain` -/
def createChain (g : Geometry) (fuel out : Nat) : FatM Nat := stretchChain g fuel 0 out

/-! ## Cells -/

/-- What a value and its flags make of a cell. -/
def ClustFlags.cell (val : Nat) : ClustFlags → Cell Nat
  | .free => .free
  | .bad => .unusable
  | .last => .last
  | .used => .link val

/-- What the library makes of a value of the table. -/
def cellOf (g : Geometry) (val : Nat) : Cell Nat :=
  ((clustFlags g val).map (ClustFlags.cell val)).getD .unusable

/-- The table of clusters. -/
def Volume.cells (g : Geometry) (v : Volume) (c : Nat) : Cell Nat :=
  if c < g.clustCnt then cellOf g (v.entry g c) else .unusable

/-- The clusters that are free. -/
def Volume.free (g : Geometry) (v : Volume) : Finset Nat :=
  freeIn (Finset.range g.clustCnt) (v.cells g)

section Cells

variable {g : Geometry} {v t : Volume} {c val : Nat}

theorem lt_of_cells (h : v.cells g c ≠ .unusable) : c < g.clustCnt := by
  by_contra hc
  exact h (if_neg hc)

theorem cells_congr (h : t.view = v.view) : t.cells g = v.cells g := by
  funext c
  simp only [Volume.cells, Volume.entry, Volume.item, h]

theorem cells_of_flags {flags : ClustFlags} (hc : c < g.clustCnt)
    (h : clustFlags g (v.entry g c) = some flags) : v.cells g c = flags.cell (v.entry g c) := by
  rw [Volume.cells, if_pos hc, cellOf, h]
  rfl

theorem cellOf_zero : cellOf g 0 = .free := by simp [cellOf, clustFlags, ClustFlags.cell]

theorem cellOf_eoc : cellOf g 0x0fffffff = .last := by simp [cellOf, clustFlags, ClustFlags.cell]

theorem cellOf_link (hg : g.Regular) (h2 : 2 ≤ val) (hlt : val < g.clustCnt) :
    cellOf g val = .link val := by
  have := hg.clustCnt_le
  rw [cellOf, clustFlags, if_neg (by omega), if_neg (by omega), if_neg (by omega),
    if_pos ⟨h2, hlt⟩]
  rfl

/-- A cell that is stored. -/
theorem Put.cells_eq {ts : List Nat} (h : Put g ts v c val t) (hts : g.fatSect0 ∈ ts)
    (hc : c < g.clustCnt) : t.cells g = update (v.cells g) c (cellOf g (val % 2 ^ 28)) := by
  funext c'
  by_cases hcc : c' = c
  · subst hcc
    rw [update_self, Volume.cells, if_pos hc, h.entry_eq hc, if_pos ⟨hts, rfl⟩]
  · rw [update_of_ne hcc, Volume.cells, Volume.cells]
    split
    next hlt => rw [h.entry_eq hlt, if_neg fun h => hcc h.2]
    next => rfl

/-- The active copy has the cells. -/
theorem Put.cells_of_notMem {ts : List Nat} (h : Put g ts v c val t) (hts : g.fatSect0 ∉ ts) :
    t.cells g = v.cells g := by
  funext c'
  rw [Volume.cells, Volume.cells]
  split
  next hlt => rw [h.entry_eq hlt, if_neg fun h => hts h.1]
  next => rfl

/-- What `get_fat` finds is the cell. -/
theorem getFat_cells (hg : g.Regular) (hs : v.Sound) (hc : c < g.clustCnt) :
    Meets (getFat g c) v
      (fun r t => Volume.Looked g v t ∧ v.cells g c = r.2.cell r.1)
      fun e t => Refused v e t ∨
        e = .error .broken ∧ Volume.Looked g v t ∧ clustFlags g (v.entry g c) = none := by
  have hin := hg.inTables_itemSect Geometry.fat0_mem_tables hc
  refine (getFat_spec g hs (hg.itemSect_ne_zero Geometry.fat0_mem_tables hc)).mono
    (fun r t hr => ?_) fun _ _ he => he.imp_right fun hb => ?_
  · obtain ⟨hsame, hkey, hval, hflags⟩ := hr
    exact ⟨⟨hsame, .inr (.inl (hkey ▸ hin))⟩, by rw [hval, cells_of_flags hc hflags]⟩
  · obtain ⟨he, hsame, hkey, hbroken⟩ := hb
    exact ⟨he, ⟨hsame, .inr (.inl (hkey ▸ hin))⟩, hbroken⟩

end Cells

end Demoos.Fat
