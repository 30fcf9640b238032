import Demoos.Lib.Radix
import Demoos.Memory.Pages
import Mathlib.Tactic.IntervalCases

/-!
# Page tables

`map_page` of `libs/mm.c`, with the part of a PCB that it writes, and the walk that the
hardware does.  The tables of a process are a radix tree, whatever addresses are
mapped and in whatever order.

The pages of a predicate `R` belong to others.  They stay taken, nobody writes to
them, and they do not become tables.
-/

namespace Demoos

open Function (update update_self update_of_ne update_apply)

/-! ## The code -/

-- `PAGE_MASK`, `MM_TYPE_PAGE_TABLE` and `MMU_PTE_FLAGS`.
def pageMask : Nat := 0xfffffffffffff000
def mmTypePageTable : Nat := 0x3
def mmuPteFlags : Nat := 0x447

-- `PGD_SHIFT`, `PUD_SHIFT`, `PMD_SHIFT` and `PAGE_SHIFT`.
def pgdShift : Nat := 39
def pudShift : Nat := 30
def pmdShift : Nat := 21
def pageShift : Nat := 12

-- `PTRS_PER_TABLE`
def ptrsPerTable : Nat := 512

structure UserPage where
  physicalAddress : Nat
  virtualAddress : Nat
deriving DecidableEq, Repr

/-- `struct mm_struct`. -/
structure MmStruct where
  pgd : Nat
  nUserPages : Nat
  userPages : Nat → UserPage
  nKernelPages : Nat
  kernelPages : Nat → Nat

namespace Ram

/-- Entry `i` of the table at the physical address `table`. -/
@[irreducible] def readEntry (r : Ram) (table i : Nat) : Nat := Bytes.read (r.byte table) (8 * i) 8

def writeEntry (r : Ram) (table i v : Nat) : Ram :=
  { r with byte := update r.byte table (Bytes.write (r.byte table) (8 * i) 8 v) }

end Ram

def tableIndex (va shift : Nat) : Nat := (va >>> shift) &&& (ptrsPerTable - 1)

/-- The next table, and whether it is new. -/
@[irreducible] def mapTable (r : Ram) (table shift va : Nat) : Nat × Bool × Ram :=
  let i := tableIndex va shift
  if r.readEntry table i = 0 then
    let page := r.getFreePage
    let r := (page.2.relyOn page.1).memzero page.1
    (page.1, true, r.writeEntry table i (page.1 ||| mmTypePageTable))
  else (r.readEntry table i &&& pageMask, false, r)

def mapTableEntry (r : Ram) (pte va page : Nat) : Ram :=
  r.writeEntry pte (tableIndex va pageShift) (page ||| mmuPteFlags)

namespace MmStruct

def pushKernelPage (mm : MmStruct) (page : Nat) : MmStruct :=
  { mm with
    kernelPages := update mm.kernelPages mm.nKernelPages page
    nKernelPages := mm.nKernelPages + 1 }

def pushUserPage (mm : MmStruct) (page : UserPage) : MmStruct :=
  { mm with
    userPages := update mm.userPages mm.nUserPages page
    nUserPages := mm.nUserPages + 1 }

end MmStruct

/-- The first part of `map_page`. -/
@[irreducible] def ensurePgd (mm : MmStruct) (r : Ram) : MmStruct × Ram :=
  if mm.pgd = 0 then
    let page := r.getFreePage
    ({ mm with pgd := page.1 }.pushKernelPage page.1, (page.2.relyOn page.1).memzero page.1)
  else (mm, r)

/-- What `map_page` does three times: it goes from a table to the next one and tracks
that if it is new. -/
def mapLevel (shift va : Nat) (s : MmStruct × Nat × Ram) : MmStruct × Nat × Ram :=
  let next := mapTable s.2.2 s.2.1 shift va
  (if next.2.1 then s.1.pushKernelPage next.1 else s.1, next.1, next.2.2)

def mapPage (mm : MmStruct) (r : Ram) (va page : Nat) : MmStruct × Ram :=
  let pgd := ensurePgd mm r
  let pud := mapLevel pgdShift va (pgd.1, pgd.1.pgd, pgd.2)
  let pmd := mapLevel pudShift va pud
  let pte := mapLevel pmdShift va pmd
  (pte.1.pushUserPage ⟨page, va⟩, mapTableEntry pte.2.2 pte.2.1 va page)

def allocateUserPage (mm : MmStruct) (r : Ram) (va : Nat) : Nat × MmStruct × Ram :=
  let page := r.getFreePage
  if page.1 = 0 then (0, mm, page.2) else (page.1 + vaStart, mapPage mm page.2 va page.1)

/-- What a descriptor of the hardware points to. -/
def descriptor (e : Nat) : Option Nat := if e &&& 3 = 3 then some (e &&& pageMask) else none

/-- The indices of an address, from the first table on. -/
def indices (va : Nat) : List Nat :=
  [tableIndex va pgdShift, tableIndex va pudShift, tableIndex va pmdShift, tableIndex va pageShift]

/-- The table at level `k` of the walk of an address. -/
def tableAt (r : Ram) (pgd va k : Nat) : Option Nat :=
  if pgd = 0 then none else Radix.walk descriptor r.readEntry ((indices va).take k) pgd

/-- The page that the tables under `pgd` map the address to. -/
def translate (r : Ram) (pgd va : Nat) : Option Nat :=
  if pgd = 0 then none
  else Radix.walk descriptor r.readEntry [tableIndex va pgdShift, tableIndex va pudShift,
    tableIndex va pmdShift, tableIndex va pageShift] pgd

/-! ## Entries -/

/-- What stands in a table, for what is below it at level `k`. -/
def encode (k : Nat) : Option Nat → Nat
  | none => 0
  | some g => g ||| if k = 4 then mmuPteFlags else mmTypePageTable

/-- An address that an entry has room for. -/
structure IsFrame (g : Nat) : Prop where
  aligned : g % pageSize = 0
  lt : g < 2 ^ 64

theorem IsPage.isFrame {g : Nat} (h : IsPage g) : IsFrame g :=
  ⟨h.aligned, Nat.lt_trans h.lt (by decide)⟩

theorem and_pageMask {x : Nat} (hx : x < 2 ^ 64) : x &&& pageMask = x / pageSize * pageSize := by
  have hmask : pageMask = (2 ^ 52 - 1) <<< 12 := by decide
  have hpage : x / pageSize * pageSize = (x >>> 12) <<< 12 := by
    rw [Nat.shiftLeft_eq, Nat.shiftRight_eq_div_pow]
    rfl
  rw [hmask, hpage]
  refine Nat.eq_of_testBit_eq fun i => ?_
  rw [Nat.testBit_and, Nat.testBit_shiftLeft, Nat.testBit_shiftLeft, Nat.testBit_shiftRight,
    Nat.testBit_two_pow_sub_one]
  by_cases hi : 12 ≤ i
  · rw [Nat.add_sub_cancel' hi]
    by_cases hlt : i < 64
    · simp [hi, show i - 12 < 52 by omega]
    · have hhigh : x < 2 ^ i := Nat.lt_of_lt_of_le hx (Nat.pow_le_pow_right (by decide) (by omega))
      simp [Nat.testBit_lt_two_pow hhigh]
  · simp [hi]

theorem or_flags {g f : Nat} (hg : g % pageSize = 0) (hf : f < pageSize) : g ||| f = g + f := by
  have hsplit : g = 2 ^ 12 * (g / pageSize) := by
    unfold pageSize at *
    omega
  rw [hsplit]
  exact (Nat.two_pow_add_eq_or_of_lt hf _).symm

theorem tableIndex_eq (va shift : Nat) : tableIndex va shift = va / 2 ^ shift % 512 := by
  unfold tableIndex ptrsPerTable
  rw [Nat.shiftRight_eq_div_pow, show 512 - 1 = 2 ^ 9 - 1 from rfl, Nat.and_two_pow_sub_one_eq_mod]

theorem encode_some {g : Nat} (hg : IsFrame g) (k : Nat) :
    ∃ f, f < pageSize ∧ f % 4 = 3 ∧ encode k (some g) = g + f := by
  refine ⟨if k = 4 then mmuPteFlags else mmTypePageTable, ?_, ?_, ?_⟩
  · split <;> decide
  · split <;> decide
  · rw [encode]
    exact or_flags hg.aligned (by split <;> decide)

theorem encode_lt {g : Nat} (hg : IsFrame g) (k : Nat) : encode k (some g) < 2 ^ 64 := by
  obtain ⟨f, hf, _, he⟩ := encode_some hg k
  obtain ⟨haligned, hlt⟩ := hg
  rw [he]
  unfold pageSize at hf haligned
  omega

theorem encode_ne_zero {g : Nat} (hg : IsFrame g) (k : Nat) : encode k (some g) ≠ 0 := by
  obtain ⟨f, _, hf, he⟩ := encode_some hg k
  omega

theorem encode_and {g : Nat} (hg : IsFrame g) (k : Nat) : encode k (some g) &&& pageMask = g := by
  rw [and_pageMask (encode_lt hg k)]
  obtain ⟨f, hf, _, he⟩ := encode_some hg k
  obtain ⟨haligned, _⟩ := hg
  rw [he]
  unfold pageSize at *
  omega

theorem encode_and_three {g : Nat} (hg : IsFrame g) (k : Nat) : encode k (some g) &&& 3 = 3 := by
  obtain ⟨f, _, hf, he⟩ := encode_some hg k
  have haligned := hg.aligned
  rw [he, show 3 = 2 ^ 2 - 1 from rfl, Nat.and_two_pow_sub_one_eq_mod]
  unfold pageSize at haligned
  omega

/-- The hardware reads what `map_page` writes. -/
theorem descriptor_encode {x : Option Nat} (hx : ∀ g, x = some g → IsFrame g) (k : Nat) :
    descriptor (encode k x) = x := by
  cases x with
  | none =>
      rw [encode]
      rfl
  | some g =>
      have hg : IsFrame g := hx g rfl
      rw [descriptor, if_pos (encode_and_three hg k), encode_and hg]

namespace Ram

variable {r : Ram} {table i j v g : Nat}

theorem readEntry_writeEntry (hv : v < 2 ^ 64) : (r.writeEntry table i v).readEntry table i = v := by
  unfold readEntry writeEntry
  dsimp only
  rw [update_self]
  exact Bytes.read_write hv

theorem readEntry_writeEntry_of_ne (h : ¬ (g = table ∧ j = i)) :
    (r.writeEntry table i v).readEntry g j = r.readEntry g j := by
  unfold readEntry writeEntry
  dsimp only
  by_cases hg : g = table
  · subst hg
    have hj : j ≠ i := fun hj => h ⟨rfl, hj⟩
    rw [update_self]
    exact Bytes.read_write_of_disjoint (by omega)
  · rw [update_of_ne hg]

theorem readEntry_congr {r' : Ram} (h : r'.byte g = r.byte g) :
    r'.readEntry g i = r.readEntry g i := by
  rw [readEntry, h, readEntry]

theorem readEntry_zero (h : r.byte g = fun _ => 0) : r.readEntry g i = 0 := by
  rw [readEntry, h]
  exact Bytes.read_zero fun _ _ _ => rfl

end Ram

/-! ## The tables of a process -/

/-- The key of the address at level `k`. -/
def tableKey (va k : Nat) : Nat := va / 2 ^ (48 - 9 * k) % 2 ^ (9 * k)

/-- A table of the tree. -/
def IsTable (t : Radix.Tree Nat) (g : Nat) : Prop := ∃ k < 4, ∃ key, t k key = some g

/-- `kernel_pages` has the pages of `P`, each of them once. -/
structure Tracked (mm : MmStruct) (P : Nat → Prop) : Prop where
  sound : ∀ i < mm.nKernelPages, P (mm.kernelPages i)
  complete : ∀ g, P g → ∃ i < mm.nKernelPages, mm.kernelPages i = g
  once : ∀ i < mm.nKernelPages, ∀ j < mm.nKernelPages, mm.kernelPages i = mm.kernelPages j → i = j

/-- The tables under `pgd` are the tree `t`, tracked in `kernel_pages`, and they are
nobody else's. -/
structure Tables (mm : MmStruct) (r : Ram) (t : Radix.Tree Nat) (R : Nat → Prop) : Prop where
  holds : Radix.Holds ptrsPerTable 4 encode r.readEntry t
  root : t 0 0 = if mm.pgd = 0 then none else some mm.pgd
  onlyRoot : ∀ key ≠ 0, t 0 key = none
  own : ∀ g, IsTable t g → r.Taken g ∧ ¬ R g
  value : ∀ key g, t 4 key = some g → IsFrame g
  tracked : Tracked mm (IsTable t)

/-- What others see of a step from `r` to `r'`. -/
structure Keeps (R : Nat → Prop) (r r' : Ram) : Prop where
  taken : ∀ g, r.Taken g → r'.Taken g
  byte : ∀ g, R g → r'.byte g = r.byte g

/-- `t'` has more tables than `t` on the way to `va`, and the same values. -/
structure Extends (va : Nat) (t t' : Radix.Tree Nat) : Prop where
  table : ∀ k < 4, ∀ key, key ≠ tableKey va k → t' k key = t k key
  value : t' 4 = t 4

/-- A part of `map_page`, from `mm` and `r`. -/
structure Grows (mm : MmStruct) (r : Ram) (t : Radix.Tree Nat) (R : Nat → Prop) (va : Nat)
    (mm' : MmStruct) (r' : Ram) (t' : Radix.Tree Nat) : Prop where
  tables : Tables mm' r' t' R
  keeps : Keeps R r r'
  extend : Extends va t t'
  user : mm'.nUserPages = mm.nUserPages ∧ mm'.userPages = mm.userPages

theorem Keeps.refl (R : Nat → Prop) (r : Ram) : Keeps R r r := ⟨fun _ h => h, fun _ _ => rfl⟩

theorem Keeps.trans {R : Nat → Prop} {r r' r'' : Ram} (h : Keeps R r r') (h' : Keeps R r' r'') :
    Keeps R r r'' :=
  ⟨fun g hg => h'.taken g (h.taken g hg), fun g hg => (h'.byte g hg).trans (h.byte g hg)⟩

theorem Extends.refl (va : Nat) (t : Radix.Tree Nat) : Extends va t t := ⟨fun _ _ _ _ => rfl, rfl⟩

theorem Extends.trans {va : Nat} {t t' t'' : Radix.Tree Nat} (h : Extends va t t')
    (h' : Extends va t' t'') : Extends va t t'' :=
  ⟨fun k hk key hne => (h'.table k hk key hne).trans (h.table k hk key hne),
    h'.value.trans h.value⟩

theorem Grows.trans {mm mm' mm'' : MmStruct} {r r' r'' : Ram} {t t' t'' : Radix.Tree Nat}
    {R : Nat → Prop} {va : Nat} (h : Grows mm r t R va mm' r' t')
    (h' : Grows mm' r' t' R va mm'' r'' t'') : Grows mm r t R va mm'' r'' t'' where
  tables := h'.tables
  keeps := h.keeps.trans h'.keeps
  extend := h.extend.trans h'.extend
  user := ⟨h'.user.1.trans h.user.1, h'.user.2.trans h.user.2⟩

theorem tableKey_succ (va : Nat) {k : Nat} (hk : k < 4) :
    tableKey va (k + 1) = tableKey va k * ptrsPerTable + tableIndex va (39 - 9 * k) := by
  rw [tableIndex_eq]
  unfold tableKey ptrsPerTable
  interval_cases k <;> omega

theorem tableKey_zero (va : Nat) : tableKey va 0 = 0 := Nat.mod_one _

theorem tableIndex_lt (va shift : Nat) : tableIndex va shift < ptrsPerTable := by
  rw [tableIndex_eq]
  exact Nat.mod_lt _ (by decide)

theorem keyOf_indices (va : Nat) {k : Nat} (hk : k ≤ 4) :
    Radix.keyOf ptrsPerTable 0 ((indices va).take k) = tableKey va k := by
  induction k with
  | zero => exact (tableKey_zero va).symm
  | succ k ih =>
      have hlt : k < 4 := hk
      have hlast : (indices va).take (k + 1) =
          (indices va).take k ++ [tableIndex va (39 - 9 * k)] := by
        interval_cases k <;> rfl
      rw [tableKey_succ va hlt, ← ih (by omega), hlast]
      unfold Radix.keyOf
      rw [List.foldl_append]
      rfl

theorem lt_of_mem_indices {va i : Nat} (hi : i ∈ indices va) : i < ptrsPerTable := by
  unfold indices at hi
  simp only [List.mem_cons, List.not_mem_nil, or_false] at hi
  rcases hi with rfl | rfl | rfl | rfl <;> exact tableIndex_lt ..

theorem kernelPages_push (mm : MmStruct) (g i : Nat) :
    (mm.pushKernelPage g).kernelPages i =
      if i = mm.nKernelPages then g else mm.kernelPages i := update_apply _ _ _ _

theorem Tracked.push {mm : MmStruct} {P Q : Nat → Prop} {g : Nat} (h : Tracked mm P) (hg : ¬ P g)
    (hQ : ∀ x, Q x ↔ P x ∨ x = g) : Tracked (mm.pushKernelPage g) Q := by
  have hlt : ∀ {i}, i < (mm.pushKernelPage g).nKernelPages → i ≠ mm.nKernelPages →
      i < mm.nKernelPages := fun hi hne => Nat.lt_of_le_of_ne (Nat.lt_succ_iff.mp hi) hne
  have hold : ∀ i < mm.nKernelPages, mm.kernelPages i ≠ g := fun i hi he => hg (he ▸ h.sound i hi)
  refine ⟨fun i hi => ?_, fun x hx => ?_, fun i hi j hj he => ?_⟩
  · rw [hQ, kernelPages_push]
    split
    next => exact .inr rfl
    next hne => exact .inl (h.sound i (hlt hi hne))
  · rcases (hQ x).mp hx with hx | rfl
    · obtain ⟨i, hi, rfl⟩ := h.complete x hx
      exact ⟨i, Nat.lt_succ_of_lt hi, by rw [kernelPages_push, if_neg (Nat.ne_of_lt hi)]⟩
    · exact ⟨mm.nKernelPages, Nat.lt_succ_self _, by rw [kernelPages_push, if_pos rfl]⟩
  · rw [kernelPages_push, kernelPages_push] at he
    by_cases hi' : i = mm.nKernelPages
    · by_cases hj' : j = mm.nKernelPages
      · exact hi'.trans hj'.symm
      · rw [if_pos hi', if_neg hj'] at he
        exact absurd he.symm (hold j (hlt hj hj'))
    · rw [if_neg hi'] at he
      by_cases hj' : j = mm.nKernelPages
      · rw [if_pos hj'] at he
        exact absurd he (hold i (hlt hi hi'))
      · rw [if_neg hj'] at he
        exact h.once i (hlt hi hi') j (hlt hj hj') he

theorem isTable_insert {t : Radix.Tree Nat} {k key x g : Nat} (hk : k < 4) (hnone : t k key = none) :
    IsTable (Radix.insert t k key x) g ↔ IsTable t g ∨ g = x := by
  unfold IsTable Radix.insert
  constructor
  · rintro ⟨k', hk', key', hg⟩
    split at hg
    next => exact .inr (Option.some.inj hg).symm
    next => exact .inl ⟨k', hk', key', hg⟩
  · rintro (⟨k', hk', key', hg⟩ | rfl)
    · refine ⟨k', hk', key', ?_⟩
      rw [if_neg, hg]
      rintro ⟨rfl, rfl⟩
      rw [hnone] at hg
      exact absurd hg nofun
    · exact ⟨k, hk, key, if_pos ⟨rfl, rfl⟩⟩

theorem mapTable_of_zero {r : Ram} {table shift va : Nat}
    (h : r.readEntry table (tableIndex va shift) = 0) :
    mapTable r table shift va = (r.getFreePage.1, true,
      ((r.getFreePage.2.relyOn r.getFreePage.1).memzero r.getFreePage.1).writeEntry table
        (tableIndex va shift) (r.getFreePage.1 ||| mmTypePageTable)) := by
  unfold mapTable
  dsimp only
  rw [if_pos h]

theorem mapTable_of_ne {r : Ram} {table shift va : Nat}
    (h : r.readEntry table (tableIndex va shift) ≠ 0) :
    mapTable r table shift va =
      (r.readEntry table (tableIndex va shift) &&& pageMask, false, r) := by
  unfold mapTable
  dsimp only
  rw [if_neg h]

theorem ages_mapTable (r : Ram) (table shift va : Nat) :
    Ram.Ages r (mapTable r table shift va).2.2 := by
  unfold mapTable
  dsimp only
  split
  next => exact r.ages_relyOn.trans (.of_eq ⟨rfl, rfl⟩)
  next => exact .refl r

namespace Tables

variable {mm : MmStruct} {r : Ram} {t : Radix.Tree Nat} {R : Nat → Prop} {va k g : Nat}

/-- A fresh page, written into an empty entry, is one more table. -/
theorem grow {x : Nat} {r' : Ram} (h : Tables mm r t R) (hR : ∀ g, R g → r.Taken g) (hk : k < 3)
    (hg : t k (tableKey va k) = some g) (hnone : t (k + 1) (tableKey va (k + 1)) = none)
    (hx : r.Takes x r') :
    Grows mm r t R va (mm.pushKernelPage x) ((r'.memzero x).writeEntry g
      (tableIndex va (39 - 9 * k)) (x ||| mmTypePageTable))
      (Radix.insert t (k + 1) (tableKey va (k + 1)) x) := by
  have hvalue : x ||| mmTypePageTable = encode (k + 1) (some x) := by
    rw [encode, if_neg (by omega)]
  have hfresh : ¬ IsTable t x := fun ht => hx.free (h.own x ht).1
  have hgx : x ≠ g := fun he => hfresh ⟨k, by omega, _, he ▸ hg⟩
  have hbyte : ∀ g', g' ≠ x → (r'.memzero x).byte g' = r.byte g' := fun g' hne => by
    rw [Ram.memzero, hx.byte]
    dsimp only
    rw [update_of_ne hne, update_of_ne hne]
  have htaken : ∀ g', ((r'.memzero x).writeEntry g (tableIndex va (39 - 9 * k))
      (x ||| mmTypePageTable)).Taken g' ↔ r.Taken g' ∨ g' = x := hx.taken
  have htable : ∀ g', IsTable (Radix.insert t (k + 1) (tableKey va (k + 1)) x) g' ↔
      IsTable t g' ∨ g' = x := fun g' => isTable_insert (by omega) hnone
  refine ⟨⟨?_, ?_, fun key hkey => ?_, fun g' hg' => ?_, fun key g' hg' => ?_,
    h.tracked.push hfresh htable⟩, ⟨fun g' hg' => (htaken g').mpr (.inl hg'), fun g' hg' => ?_⟩,
    ⟨fun k' hk' key hkey => ?_, ?_⟩, rfl, rfl⟩
  · rw [tableKey_succ va (by omega)] at hnone ⊢
    refine h.holds.insert (by omega) hg (tableIndex_lt va _) ?_ (fun k' hk' key' g' hg' j _ hne => ?_)
      fun _ => ⟨hnone, fun k' hk' key' hkey => hfresh ⟨k', hk', key', hkey⟩, fun j _ => ?_⟩
    · rw [hvalue]
      exact Ram.readEntry_writeEntry (encode_lt hx.isPage.isFrame _)
    · rw [Ram.readEntry_writeEntry_of_ne hne]
      exact Ram.readEntry_congr (hbyte g' fun he => hfresh ⟨k', hk', key', he ▸ hg'⟩)
    · rw [Ram.readEntry_writeEntry_of_ne fun he => hgx he.1]
      exact Ram.readEntry_zero (update_self _ _ _)
  · exact (if_neg fun he => Nat.succ_ne_zero k he.1.symm).trans h.root
  · exact (if_neg fun he => Nat.succ_ne_zero k he.1.symm).trans (h.onlyRoot key hkey)
  · rw [htaken]
    rcases (htable g').mp hg' with ht | rfl
    · exact ⟨.inl (h.own g' ht).1, (h.own g' ht).2⟩
    · exact ⟨.inr rfl, fun hr => hx.free (hR g' hr)⟩
  · exact h.value key g' ((if_neg fun he => by omega).symm.trans hg')
  · have hne : g' ≠ g := fun he => (h.own g ⟨k, by omega, _, hg⟩).2 (he ▸ hg')
    exact (update_of_ne hne _ _).trans (hbyte g' fun he => hx.free (he ▸ hR g' hg'))
  · refine if_neg ?_
    rintro ⟨rfl, rfl⟩
    exact hkey rfl
  · exact funext fun key => if_neg fun he => by omega

/-- One level of `map_page`. -/
theorem mapLevel (h : Tables mm r t R) (hR : ∀ g, R g → r.Taken g) (hk : k < 3)
    (hg : t k (tableKey va k) = some g)
    (hok : (Demoos.mapLevel (39 - 9 * k) va (mm, g, r)).2.2.corrupted = false) :
    ∃ t', Grows mm r t R va (Demoos.mapLevel (39 - 9 * k) va (mm, g, r)).1
        (Demoos.mapLevel (39 - 9 * k) va (mm, g, r)).2.2 t' ∧
      t' (k + 1) (tableKey va (k + 1)) =
        some (Demoos.mapLevel (39 - 9 * k) va (mm, g, r)).2.1 ∧
      ∀ j, k + 1 < j → t' j = t j := by
  have hentry := h.holds.entries k (by omega) _ g hg _ (tableIndex_lt va (39 - 9 * k))
  rw [← tableKey_succ va (by omega)] at hentry
  unfold Demoos.mapLevel at hok ⊢
  dsimp only at hok ⊢
  cases hnext : t (k + 1) (tableKey va (k + 1)) with
  | none =>
      rw [hnext, encode] at hentry
      rw [mapTable_of_zero hentry] at hok ⊢
      have hpage : r.getFreePage.1 ≠ 0 := (Ram.corrupted_relyOn hok).2
      rw [Ram.relyOn_eq hpage]
      refine ⟨_, h.grow hR hk hg hnext (Ram.takes_getFreePage hpage), ?_⟩
      exact ⟨if_pos ⟨rfl, rfl⟩, fun j hj => funext fun key => if_neg fun he => by omega⟩
  | some x =>
      have hx : IsFrame x := (h.own x ⟨k + 1, by omega, _, hnext⟩).1.isPage.isFrame
      rw [hnext] at hentry
      rw [mapTable_of_ne (by rw [hentry]; exact encode_ne_zero hx _), hentry, encode_and hx]
      exact ⟨t, ⟨h, .refl R r, .refl va t, rfl, rfl⟩, hnext, fun _ _ => rfl⟩

/-- Without a root there is nothing. -/
theorem eq_none (h : Tables mm r t R) (hpgd : mm.pgd = 0) (hk : k ≤ 4) (key : Nat) :
    t k key = none := by
  induction k generalizing key with
  | zero =>
      by_cases hkey : key = 0
      · rw [hkey, h.root, if_pos hpgd]
      · exact h.onlyRoot key hkey
  | succ k ih => exact h.holds.closed k (by omega) key (ih (by omega) _)

theorem ensurePgd (h : Tables mm r t R) (hR : ∀ g, R g → r.Taken g)
    (hok : (Demoos.ensurePgd mm r).2.corrupted = false) (va : Nat) :
    ∃ t', Grows mm r t R va (Demoos.ensurePgd mm r).1 (Demoos.ensurePgd mm r).2 t' ∧
      t' 0 (tableKey va 0) = some (Demoos.ensurePgd mm r).1.pgd ∧
      ∀ j ≤ 4, 0 < j → t' j = t j := by
  rw [tableKey_zero]
  unfold Demoos.ensurePgd at hok ⊢
  split at hok
  next hpgd =>
    rw [if_pos hpgd]
    dsimp only at hok ⊢
    have hpage : r.getFreePage.1 ≠ 0 := (Ram.corrupted_relyOn hok).2
    have hx := Ram.takes_getFreePage hpage
    rw [Ram.relyOn_eq hpage]
    generalize r.getFreePage.1 = x at hx ⊢
    generalize r.getFreePage.2 = r' at hx ⊢
    have hnone : ∀ k ≤ 4, ∀ key, t k key = none := fun k hk key => h.eq_none hpgd hk key
    have hbelow : ∀ j ≤ 4, 0 < j → Radix.root x j = t j := fun j hj hpos => funext fun key => by
      rw [hnone j hj key]
      exact if_neg fun he => absurd he.1 (Nat.ne_of_gt hpos)
    have hzero : (r'.memzero x).byte = update r.byte x fun _ => 0 := by
      rw [Ram.memzero, hx.byte]
      exact Function.update_idem _ _ _
    have htable : ∀ g, IsTable (Radix.root x) g ↔ IsTable t g ∨ g = x := by
      intro g
      constructor
      · rintro ⟨k, _, key, hg⟩
        unfold Radix.root at hg
        split at hg
        next => exact .inr (Option.some.inj hg).symm
        next => exact absurd hg nofun
      · rintro (⟨k, hk, key, hg⟩ | rfl)
        · rw [hnone k (by omega) key] at hg
          exact absurd hg nofun
        · exact ⟨0, by omega, 0, if_pos ⟨rfl, rfl⟩⟩
    have hfresh : ¬ IsTable t x := fun ht => hx.free (h.own x ht).1
    have htracked : Tracked { mm with pgd := x } (IsTable t) :=
      ⟨h.tracked.sound, h.tracked.complete, h.tracked.once⟩
    refine ⟨Radix.root x, ⟨⟨?_, ?_, fun key hkey => ?_, fun g hg => ?_, fun key g hg => ?_,
      htracked.push hfresh htable⟩, ⟨fun g hg => (hx.taken g).mpr (.inl hg), fun g hg => ?_⟩,
      ⟨fun k hk key hkey => ?_, hbelow 4 le_rfl (by decide)⟩, rfl, rfl⟩, if_pos ⟨rfl, rfl⟩, hbelow⟩
    · exact .root fun i _ => Ram.readEntry_zero (update_self _ _ _)
    · exact (if_pos ⟨rfl, rfl⟩).trans (if_neg hx.isPage.ne_zero).symm
    · exact if_neg fun he => hkey he.2
    · rcases (htable g).mp hg with ht | rfl
      · exact ⟨(hx.taken g).mpr (.inl (h.own g ht).1), (h.own g ht).2⟩
      · exact ⟨(hx.taken g).mpr (.inr rfl), fun hr => hx.free (hR g hr)⟩
    · exact absurd ((if_neg fun he => absurd he.1 (by decide)).symm.trans hg) nofun
    · rw [hzero]
      have hne : g ≠ x := fun he => hx.free (he ▸ hR g hg)
      exact update_of_ne hne _ _
    · rw [hnone k (by omega) key]
      refine if_neg ?_
      rintro ⟨rfl, rfl⟩
      exact hkey (tableKey_zero va).symm
  next hpgd =>
    rw [if_neg hpgd]
    exact ⟨t, ⟨h, .refl R r, .refl va t, rfl, rfl⟩, h.root.trans (if_neg hpgd), fun _ _ _ => rfl⟩

end Tables

/-! ## A mapping -/

/-- `map_page` of the page `page` at `va`, and nothing else changes for anybody. -/
structure Maps (mm : MmStruct) (r : Ram) (t : Radix.Tree Nat) (R : Nat → Prop) (va page : Nat)
    (mm' : MmStruct) (r' : Ram) (t' : Radix.Tree Nat) : Prop where
  tables : Tables mm' r' t' R
  keeps : Keeps R r r'
  table : ∀ k < 4, ∀ key, key ≠ tableKey va k → t' k key = t k key
  value : ∀ key, t' 4 key = if key = tableKey va 4 then some page else t 4 key
  user : mm'.nUserPages = mm.nUserPages + 1 ∧
    mm'.userPages = update mm.userPages mm.nUserPages ⟨page, va⟩

theorem ages_ensurePgd (mm : MmStruct) (r : Ram) : Ram.Ages r (ensurePgd mm r).2 := by
  unfold ensurePgd
  split
  next => exact r.ages_relyOn.trans (.of_eq ⟨rfl, rfl⟩)
  next => exact .refl r

theorem Ram.Ages.mapLevel {r : Ram} {shift va : Nat} {s : MmStruct × Nat × Ram}
    (h : Ram.Ages r s.2.2) : Ram.Ages r (Demoos.mapLevel shift va s).2.2 :=
  h.trans (ages_mapTable ..)

/-- The levels of `map_page`, up to its last entry. -/
theorem corrupted_mapPage {mm : MmStruct} {r : Ram} {va page : Nat} :
    (mapPage mm r va page).2.corrupted = (mapLevel pmdShift va (mapLevel pudShift va
      (mapLevel pgdShift va ((ensurePgd mm r).1, (ensurePgd mm r).1.pgd,
        (ensurePgd mm r).2)))).2.2.corrupted := by
  unfold mapPage mapTableEntry Ram.writeEntry
  rfl

theorem ages_mapPage (mm : MmStruct) (r : Ram) (va page : Nat) :
    Ram.Ages r (mapPage mm r va page).2 := by
  have hlevels : Ram.Ages r (mapLevel pmdShift va (mapLevel pudShift va (mapLevel pgdShift va
      ((ensurePgd mm r).1, (ensurePgd mm r).1.pgd, (ensurePgd mm r).2)))).2.2 :=
    .mapLevel (.mapLevel (.mapLevel (ages_ensurePgd mm r)))
  exact hlevels.trans (.of_eq ⟨rfl, rfl⟩)

namespace Tables

variable {mm : MmStruct} {r : Ram} {t : Radix.Tree Nat} {R : Nat → Prop} {va g page : Nat}

/-- The last entry. -/
theorem mapTableEntry (h : Tables mm r t R) (hg : t 3 (tableKey va 3) = some g)
    (hpage : IsFrame page) :
    Maps mm r t R va page (mm.pushUserPage ⟨page, va⟩) (Demoos.mapTableEntry r g va page)
      (Radix.insert t 4 (tableKey va 4) page) := by
  have htable : ∀ k < 4, Radix.insert t 4 (tableKey va 4) page k = t k := fun k hk =>
    funext fun key => if_neg fun he => by omega
  have hisTable : IsTable (Radix.insert t 4 (tableKey va 4) page) = IsTable t := by
    funext g'
    unfold IsTable
    refine propext (exists_congr fun k => and_congr_right fun hk => ?_)
    rw [htable k hk]
  have hshift : pageShift = 39 - 9 * 3 := rfl
  refine ⟨⟨?_, ?_, fun key hkey => ?_, fun g' hg' => ?_, fun key g' hg' => ?_, ?_⟩,
    ⟨fun _ h => h, fun g' hg' => ?_⟩, fun k hk key _ => ?_, fun key => ?_, rfl, rfl⟩
  · rw [tableKey_succ va (by omega : 3 < 4)]
    unfold Demoos.mapTableEntry
    rw [hshift]
    refine h.holds.insert (by omega) hg (tableIndex_lt va _) ?_
      (fun _ _ _ _ _ _ _ hne => Ram.readEntry_writeEntry_of_ne hne) fun hlt => absurd hlt (by decide)
    have hvalue : page ||| mmuPteFlags = encode 4 (some page) := by rw [encode, if_pos rfl]
    rw [hvalue]
    exact Ram.readEntry_writeEntry (encode_lt hpage _)
  · rw [htable 0 (by omega)]
    exact h.root
  · rw [htable 0 (by omega)]
    exact h.onlyRoot key hkey
  · rw [hisTable] at hg'
    exact h.own g' hg'
  · unfold Radix.insert at hg'
    split at hg'
    next => exact Option.some.inj hg' ▸ hpage
    next => exact h.value key g' hg'
  · rw [hisTable]
    exact ⟨h.tracked.sound, h.tracked.complete, h.tracked.once⟩
  · have hne : g' ≠ g := fun he => (h.own g ⟨3, by omega, _, hg⟩).2 (he ▸ hg')
    exact update_of_ne hne _ _
  · rw [htable k hk]
  · unfold Radix.insert
    simp only [true_and]

/-- `map_page` for any address, in any tables. -/
theorem mapPage (h : Tables mm r t R) (hR : ∀ g, R g → r.Taken g) (hpage : IsFrame page)
    (hok : (Demoos.mapPage mm r va page).2.corrupted = false) :
    ∃ t', Maps mm r t R va page (Demoos.mapPage mm r va page).1 (Demoos.mapPage mm r va page).2
      t' := by
  rw [corrupted_mapPage] at hok
  have hpmd := (Ram.Ages.mapLevel (.refl _)).sane hok
  have hpud := (Ram.Ages.mapLevel (.refl _)).sane hpmd
  have hpgd := (Ram.Ages.mapLevel (.refl _)).sane hpud
  obtain ⟨t₀, h₀, hroot, _⟩ := h.ensurePgd hR hpgd va
  have hR₀ : ∀ g, R g → (Demoos.ensurePgd mm r).2.Taken g := fun g hg =>
    h₀.keeps.taken g (hR g hg)
  obtain ⟨t₁, h₁, hpud', _⟩ := h₀.tables.mapLevel hR₀ (by decide : 0 < 3) hroot hpud
  have hR₁ := fun g hg => h₁.keeps.taken g (hR₀ g hg)
  obtain ⟨t₂, h₂, hpmd', _⟩ := h₁.tables.mapLevel hR₁ (by decide : 1 < 3) hpud' hpmd
  have hR₂ := fun g hg => h₂.keeps.taken g (hR₁ g hg)
  obtain ⟨t₃, h₃, hpte, _⟩ := h₂.tables.mapLevel hR₂ (by decide : 2 < 3) hpmd' hok
  have hgrows := ((h₀.trans h₁).trans h₂).trans h₃
  have hmaps := h₃.tables.mapTableEntry hpte hpage
  refine ⟨_, hmaps.tables, hgrows.keeps.trans hmaps.keeps, fun k hk key hkey => ?_, fun key => ?_,
    ?_, ?_⟩
  · exact (hmaps.table k hk key hkey).trans (hgrows.extend.table k hk key hkey)
  · rw [hmaps.value, hgrows.extend.value]
  · exact hmaps.user.1.trans (congrArg (· + 1) hgrows.user.1)
  · refine hmaps.user.2.trans ?_
    rw [hgrows.user.1, hgrows.user.2]

theorem descriptor_eq (h : Tables mm r t R) {k : Nat} (hk : k ≤ 4) (key : Nat) :
    descriptor (encode k (t k key)) = t k key := by
  refine descriptor_encode (fun g hg => ?_) k
  rcases Nat.lt_or_eq_of_le hk with hlt | rfl
  · exact (h.own g ⟨k, hlt, key, hg⟩).1.isPage.isFrame
  · exact h.value key g hg

/-- The walk finds the tables of the tree. -/
theorem tableAt_eq (h : Tables mm r t R) (va : Nat) {k : Nat} (hk : k ≤ 4) :
    tableAt r mm.pgd va k = t k (tableKey va k) := by
  unfold tableAt
  split
  next hpgd => exact (h.eq_none hpgd hk _).symm
  next hpgd =>
    have hroot : t 0 0 = some mm.pgd := h.root.trans (if_neg hpgd)
    have hlength : ((indices va).take k).length = k := by
      rw [List.length_take]
      exact Nat.min_eq_left hk
    rw [h.holds.walk_eq (fun k hk key => h.descriptor_eq hk key) hroot
      (fun i hi => lt_of_mem_indices (List.mem_of_mem_take hi))
      (by rw [hlength, Nat.zero_add]; exact hk),
      keyOf_indices va hk, Nat.zero_add, hlength]

/-- The hardware finds the values of the tree. -/
theorem translate_eq (h : Tables mm r t R) (va : Nat) :
    translate r mm.pgd va = t 4 (tableKey va 4) := h.tableAt_eq va le_rfl

/-- Tables that nobody writes to stay tables, whatever the others own. -/
theorem congr {r' : Ram} {mm' : MmStruct} {R' : Nat → Prop} (h : Tables mm r t R)
    (hmm : mm'.pgd = mm.pgd ∧ mm'.nKernelPages = mm.nKernelPages ∧ mm'.kernelPages = mm.kernelPages)
    (hkeep : ∀ g, IsTable t g → r'.Taken g ∧ r'.byte g = r.byte g)
    (hR : ∀ g, IsTable t g → ¬ R' g) : Tables mm' r' t R' := by
  obtain ⟨hpgd, hn, hpages⟩ := hmm
  refine ⟨h.holds.congr fun k hk key g hg i _ => ?_, ?_, h.onlyRoot, fun g hg => ?_, h.value, ?_⟩
  · exact Ram.readEntry_congr (hkeep g ⟨k, hk, key, hg⟩).2
  · rw [hpgd]
    exact h.root
  · exact ⟨(hkeep g hg).1, hR g hg⟩
  · obtain ⟨hsound, hcomplete, honce⟩ := h.tracked
    exact ⟨by rwa [hn, hpages], by rwa [hn, hpages], by rwa [hn, hpages]⟩

/-- A page that is taken is none of the tables. -/
theorem takes {r' : Ram} {x : Nat} (h : Tables mm r t R) (hx : r.Takes x r') :
    Tables mm r' t fun g => R g ∨ g = x := by
  have hne : ∀ g, IsTable t g → g ≠ x := fun g hg he => hx.free (he ▸ (h.own g hg).1)
  refine h.congr ⟨rfl, rfl, rfl⟩ (fun g hg => ⟨?_, ?_⟩) fun g hg hR => ?_
  · exact (hx.taken g).mpr (.inl (h.own g hg).1)
  · rw [hx.byte, update_of_ne (hne g hg)]
  · rcases hR with hR | he
    · exact (h.own g hg).2 hR
    · exact hne g hg he

/-- A process without tables. -/
theorem empty (hpgd : mm.pgd = 0) (hn : mm.nKernelPages = 0) :
    Tables mm r (fun _ _ => none) R where
  holds := ⟨fun _ _ _ _ hg => absurd hg nofun, fun _ _ _ _ => rfl,
    fun _ _ _ _ _ _ _ hg => absurd hg nofun⟩
  root := (if_pos hpgd).symm
  onlyRoot _ _ := rfl
  own _ hg := by
    obtain ⟨_, _, _, hg⟩ := hg
    exact absurd hg nofun
  value _ _ hg := absurd hg nofun
  tracked := by
    refine ⟨fun i hi => ?_, fun g hg => ?_, fun i hi => ?_⟩
    · rw [hn] at hi
      exact absurd hi (Nat.not_lt_zero i)
    · obtain ⟨_, _, _, hg⟩ := hg
      exact absurd hg nofun
    · rw [hn] at hi
      exact absurd hi (Nat.not_lt_zero i)

/-- A table that is there is found. -/
theorem mapLevel_eq {k x : Nat} (h : Tables mm r t R) (hk : k < 3)
    (hg : t k (tableKey va k) = some g) (hx : t (k + 1) (tableKey va (k + 1)) = some x) :
    Demoos.mapLevel (39 - 9 * k) va (mm, g, r) = (mm, x, r) := by
  have hentry := h.holds.entries k (by omega) _ g hg _ (tableIndex_lt va (39 - 9 * k))
  have hpage : IsFrame x := (h.own x ⟨k + 1, by omega, _, hx⟩).1.isPage.isFrame
  rw [← tableKey_succ va (by omega), hx] at hentry
  unfold Demoos.mapLevel
  dsimp only
  rw [mapTable_of_ne (by rw [hentry]; exact encode_ne_zero hpage _), hentry, encode_and hpage]
  rfl

/-- Below a table there is one at each level. -/
theorem parent (h : Tables mm r t R) (hk : k < 4) (hg : t (k + 1) (tableKey va (k + 1)) = some g) :
    ∃ x, t k (tableKey va k) = some x := by
  cases hx : t k (tableKey va k) with
  | some x => exact ⟨x, rfl⟩
  | none =>
      have hkey : tableKey va (k + 1) / ptrsPerTable = tableKey va k := by
        rw [tableKey_succ va hk]
        exact Radix.digit_div (tableIndex_lt va _)
      rw [h.holds.closed k hk _ (by rw [hkey]; exact hx)] at hg
      exact absurd hg nofun

/-- With the last table in place, `map_page` writes one entry. -/
theorem mapPage_eq (h : Tables mm r t R) (hg : t 3 (tableKey va 3) = some g) :
    Demoos.mapPage mm r va page =
      (mm.pushUserPage ⟨page, va⟩, Demoos.mapTableEntry r g va page) := by
  obtain ⟨pmd, hpmd⟩ := h.parent (by decide : 2 < 4) hg
  obtain ⟨pud, hpud⟩ := h.parent (by decide : 1 < 4) hpmd
  obtain ⟨pgd, hpgd⟩ := h.parent (by decide : 0 < 4) hpud
  have hroot := h.root
  rw [tableKey_zero] at hpgd
  have hne : mm.pgd ≠ 0 := fun he => by
    rw [if_pos he, hpgd] at hroot
    exact absurd hroot nofun
  rw [if_neg hne] at hroot
  have hensure : Demoos.ensurePgd mm r = (mm, r) := by
    unfold Demoos.ensurePgd
    exact if_neg hne
  have hzero : t 0 (tableKey va 0) = some mm.pgd := by rw [tableKey_zero, hroot]
  have hupper : Demoos.mapLevel pgdShift va (mm, mm.pgd, r) = (mm, pud, r) :=
    h.mapLevel_eq (by decide : 0 < 3) hzero hpud
  have hmiddle : Demoos.mapLevel pudShift va (mm, pud, r) = (mm, pmd, r) :=
    h.mapLevel_eq (by decide : 1 < 3) hpud hpmd
  have hlower : Demoos.mapLevel pmdShift va (mm, pmd, r) = (mm, g, r) :=
    h.mapLevel_eq (by decide : 2 < 3) hpmd hg
  unfold Demoos.mapPage
  rw [hensure]
  dsimp only
  rw [hupper, hmiddle, hlower]

end Tables

theorem allocateUserPage_of_zero {mm : MmStruct} {r : Ram} {va : Nat} (h : r.getFreePage.1 = 0) :
    allocateUserPage mm r va = (0, mm, { r with exhausted := true }) := by
  rw [allocateUserPage, if_pos h, (Ram.getFreePage_eq_zero h).1]

theorem allocateUserPage_of_ne {mm : MmStruct} {r : Ram} {va : Nat} (h : r.getFreePage.1 ≠ 0) :
    allocateUserPage mm r va =
      (r.getFreePage.1 + vaStart, mapPage mm r.getFreePage.2 va r.getFreePage.1) := by
  rw [allocateUserPage, if_neg h]

end Demoos
