import Demoos.Memory.Machine

/-!
# Walks

What the hardware finds in the tables that `map_page` builds.  A call of `map_page` changes
the walk of one page, and `kernel_pages` has the tables on all the walks.
-/

namespace Demoos

open Function (update update_self update_of_ne)

/-- The descriptor that the walk of an address ends with. -/
def entryAt (r : Ram) (pgd va : Nat) : Option Nat :=
  (tableAt r pgd va 3).bind fun pte =>
    let e := r.readEntry pte (tableIndex va pageShift)
    if e &&& 3 = 3 then some e else none

/-- A table on the walk of some address. -/
def IsTableAt (r : Ram) (pgd g : Nat) : Prop := ∃ va, ∃ k < 4, tableAt r pgd va k = some g

/-- A call of `map_page` that finds pages for its tables, and room in the PCB. -/
structure Answered (mm : MmStruct) (r : Ram) (va page : Nat) : Prop where
  frame : IsFrame page
  found : (mapPage mm r va page).2.corrupted = false
  nUserPages : (mapPage mm r va page).1.nUserPages ≤ maxProcessPages
  nKernelPages : (mapPage mm r va page).1.nKernelPages ≤ maxProcessPages

/-- The tables that `map_page` has built from nothing, for pages at any addresses.  What the others
do in between leaves them alone. -/
inductive Built : MmStruct → Ram → Prop where
  | empty {mm : MmStruct} {r : Ram} (hpgd : mm.pgd = 0) (hn : mm.nKernelPages = 0)
      (hsane : r.corrupted = false) : Built mm r
  | others {mm : MmStruct} {r r' : Ram} (h : Built mm r)
      (htaken : ∀ i < mm.nKernelPages, r'.Taken (mm.kernelPages i))
      (hbyte : ∀ i < mm.nKernelPages, r'.byte (mm.kernelPages i) = r.byte (mm.kernelPages i))
      (hsane : r'.corrupted = false) : Built mm r'
  | mapPage {mm : MmStruct} {r : Ram} {va page : Nat} (h : Built mm r)
      (hcall : Answered mm r va page) : Built (mapPage mm r va page).1 (mapPage mm r va page).2

/-! ## Walks of a tree -/

theorem tableKey_four (va : Nat) : tableKey va 4 = va / pageSize % 2 ^ 36 := rfl

namespace Tables

variable {mm : MmStruct} {r : Ram} {t : Radix.Tree Nat} {R : Nat → Prop} {va g k : Nat}

/-- The walk ends with what `map_page` has written. -/
theorem entryAt_eq (h : Tables mm r t R) (va : Nat) :
    entryAt r mm.pgd va = (t 4 (tableKey va 4)).map (· ||| mmuPteFlags) := by
  unfold entryAt
  rw [h.tableAt_eq va (by decide)]
  cases hpte : t 3 (tableKey va 3) with
  | none =>
      have hnone : t 4 (tableKey va 4) = none := by
        refine h.holds.closed 3 (by decide) _ ?_
        rw [tableKey_succ va (by decide), Radix.digit_div (tableIndex_lt va _)]
        exact hpte
      rw [hnone]
      rfl
  | some pte =>
      have hentry := h.holds.entries 3 (by decide) _ pte hpte _ (tableIndex_lt va pageShift)
      have hkey : tableKey va 3 * ptrsPerTable + tableIndex va pageShift = tableKey va 4 :=
        (tableKey_succ va (by decide)).symm
      rw [hkey] at hentry
      rw [Option.bind_some, hentry]
      cases hg : t 4 (tableKey va 4) with
      | none => rfl
      | some g => exact if_pos (encode_and_three (h.value _ g hg) 4)

theorem isTableAt_iff (h : Tables mm r t R) : IsTableAt r mm.pgd g ↔ IsTable t g := by
  constructor
  · rintro ⟨va, k, hk, hg⟩
    rw [h.tableAt_eq va (Nat.le_of_lt hk)] at hg
    exact ⟨k, hk, _, hg⟩
  · rintro ⟨k, hk, key, hg⟩
    have hsome : t k key ≠ none := by
      rw [hg]
      exact nofun
    have hzero : key / ptrsPerTable ^ k = 0 := by
      by_contra hne
      exact h.holds.above (Nat.le_of_lt hk) hsome (h.onlyRoot _ hne)
    have hlt : key < 2 ^ (9 * k) := by
      rw [Nat.pow_mul]
      exact (Nat.div_eq_zero_iff.mp hzero).resolve_left
        (Nat.pos_iff_ne_zero.mp (Nat.pow_pos (by decide)))
    have hkey : tableKey (key * 2 ^ (48 - 9 * k)) k = key := by
      unfold tableKey
      rw [Nat.mul_div_cancel _ (Nat.two_pow_pos _), Nat.mod_eq_of_lt hlt]
    refine ⟨key * 2 ^ (48 - 9 * k), k, hk, ?_⟩
    rw [h.tableAt_eq _ (Nat.le_of_lt hk), hkey]
    exact hg

end Tables

/-! ## A finite map -/

/-- `map_page` of `page` at `va`, seen through the walks. -/
structure FiniteMap (mm : MmStruct) (r : Ram) (va page : Nat) (mm' : MmStruct) (r' : Ram) :
    Prop where
  mapped : entryAt r' mm'.pgd va = some (page ||| mmuPteFlags)
  found : translate r' mm'.pgd va = some page
  unchanged : ∀ x, x / pageSize % 2 ^ 36 ≠ va / pageSize % 2 ^ 36 →
    entryAt r' mm'.pgd x = entryAt r mm.pgd x
  sound : ∀ i < mm'.nKernelPages, IsTableAt r' mm'.pgd (mm'.kernelPages i)
  complete : ∀ g, IsTableAt r' mm'.pgd g → ∃ i < mm'.nKernelPages, mm'.kernelPages i = g
  once : ∀ i < mm'.nKernelPages, ∀ j < mm'.nKernelPages,
    mm'.kernelPages i = mm'.kernelPages j → i = j

namespace Built

variable {mm : MmStruct} {r : Ram} {va page : Nat}

theorem tables (h : Built mm r) : ∃ t, Tables mm r t fun _ => False := by
  induction h with
  | empty hpgd hn _ => exact ⟨_, .empty hpgd hn⟩
  | others _ htaken hbyte _ ih =>
      obtain ⟨t, ht⟩ := ih
      refine ⟨t, ht.congr ⟨rfl, rfl, rfl⟩ (fun g hg => ?_) fun _ _ => id⟩
      obtain ⟨i, hi, rfl⟩ := ht.tracked.complete g hg
      exact ⟨htaken i hi, hbyte i hi⟩
  | mapPage _ hcall ih =>
      obtain ⟨t, ht⟩ := ih
      obtain ⟨t', hmaps⟩ := ht.mapPage (fun _ => False.elim) hcall.frame hcall.found
      exact ⟨t', hmaps.tables⟩

theorem sane (h : Built mm r) : r.corrupted = false := by
  cases h with
  | empty _ _ hsane => exact hsane
  | others _ _ _ hsane => exact hsane
  | mapPage _ hcall => exact hcall.found

/-- A call of `map_page` changes the walk of one page and nothing else. -/
theorem finiteMap (h : Built mm r) (hcall : Answered mm r va page) :
    FiniteMap mm r va page (Demoos.mapPage mm r va page).1 (Demoos.mapPage mm r va page).2 := by
  obtain ⟨t, ht⟩ := h.tables
  obtain ⟨t', hmaps⟩ : ∃ t', Maps mm r t _ va page (Demoos.mapPage mm r va page).1
      (Demoos.mapPage mm r va page).2 t' :=
    ht.mapPage (fun _ => False.elim) hcall.frame hcall.found
  have hvalue : t' 4 (tableKey va 4) = some page := (hmaps.value _).trans (if_pos rfl)
  refine ⟨?_, ?_, fun x hx => ?_, fun i hi => ?_, fun g hg => ?_, hmaps.tables.tracked.once⟩
  · rw [hmaps.tables.entryAt_eq, hvalue]
    rfl
  · rw [hmaps.tables.translate_eq, hvalue]
  · rw [← tableKey_four, ← tableKey_four] at hx
    rw [hmaps.tables.entryAt_eq, ht.entryAt_eq, hmaps.value, if_neg hx]
  · exact hmaps.tables.isTableAt_iff.mpr (hmaps.tables.tracked.sound i hi)
  · exact hmaps.tables.tracked.complete g (hmaps.tables.isTableAt_iff.mp hg)

/-- Two pages under one last table. -/
theorem finiteMap_second :
    let s := Demoos.mapPage emptyMm Machine.boot.ram 0x3000 0x800000
    FiniteMap s.1 s.2 0x5123 0x900000 (Demoos.mapPage s.1 s.2 0x5123 0x900000).1
      (Demoos.mapPage s.1 s.2 0x5123 0x900000).2 :=
  finiteMap
    (.mapPage (.empty rfl rfl rfl)
      ⟨⟨by decide, by decide⟩, by decide +kernel, by decide +kernel, by decide +kernel⟩)
    ⟨⟨by decide, by decide⟩, by decide +kernel, by decide +kernel, by decide +kernel⟩

end Built

end Demoos
