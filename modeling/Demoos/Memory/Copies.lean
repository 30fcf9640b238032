import Demoos.Memory.Shortage
import Demoos.Memory.UserMemory

/-!
# Copies of an address space

`copy_virtual_memory` takes a page for each page of the parent, and the four tables of the child
with the first of them.  It makes a complete copy exactly when there are that many
free pages, and what it says of that is lost in `copy_process`.
-/

namespace Demoos

open Function (update update_self update_of_ne)

/-- The child has a copy of every page of the parent, at the same address, in frames and
by tables that the allocator gave it. -/
structure CompleteCopy (parent : MmStruct) (r : Ram) (child : MmStruct) (r' : Ram) : Prop where
  nUserPages : child.nUserPages = parent.nUserPages
  address : ∀ i < parent.nUserPages,
    (child.userPages i).virtualAddress = (parent.userPages i).virtualAddress
  mapped : ∀ i < parent.nUserPages, translate r' child.pgd (parent.userPages i).virtualAddress =
    some (child.userPages i).physicalAddress
  contents : ∀ i < parent.nUserPages, ∀ j < pageSize,
    r'.byte (child.userPages i).physicalAddress j = r.byte (parent.userPages i).physicalAddress j
  frames : ∀ i < child.nUserPages, r'.Taken (child.userPages i).physicalAddress
  tables : ∀ i < child.nKernelPages, r'.Taken (child.kernelPages i)

/-- The pages that `copy_virtual_memory` takes. -/
def copyCost (nUserPages : Nat) : Nat := if nUserPages = 0 then 0 else nUserPages + 4

/-! ## The cost -/

theorem missingTables_zero (r : Ram) (va : Nat) : missingTables r 0 va = 4 := by
  have hnone : ∀ k, (tableAt r 0 va k).isNone = true := fun k => by
    rw [tableAt, if_pos rfl]
    rfl
  unfold missingTables
  rw [List.countP_eq_length.mpr fun k _ => hnone k]
  rfl

theorem Space.missingTables_eq_zero {mm : MmStruct} {r : Ram} {t : Radix.Tree Nat} {R : Nat → Prop}
    {b i : Nat} (h : Space mm r t R b) (hi : i < ptrsPerTable) (htable : ∃ g, t 3 0 = some g) :
    missingTables r mm.pgd (i * pageSize) = 0 := by
  obtain ⟨pte, hpte⟩ := htable
  rw [← tableKey_low hi (by decide : 3 < 4)] at hpte
  obtain ⟨pmd, hpmd⟩ := h.tables.parent (by decide : 2 < 4) hpte
  obtain ⟨pud, hpud⟩ := h.tables.parent (by decide : 1 < 4) hpmd
  obtain ⟨pgd, hpgd⟩ := h.tables.parent (by decide : 0 < 4) hpud
  rw [h.tables.missingTables_eq]
  unfold Tables.cost
  rw [hpte, hpmd, hpud, hpgd]
  rfl

/-- What `k` more pages cost. -/
def costOf (mm : MmStruct) (r : Ram) (k : Nat) : Nat :=
  if k = 0 then 0 else k + missingTables r mm.pgd (mm.nUserPages * pageSize)

/-- In a space that has its tables, they cost themselves. -/
theorem Space.costOf_eq {mm : MmStruct} {r : Ram} {t : Radix.Tree Nat} {R : Nat → Prop} {b k : Nat}
    (h : Space mm r t R b) (hk : mm.nUserPages + k ≤ maxProcessPages)
    (htable : ∃ g, t 3 0 = some g) : costOf mm r k = k := by
  have hlt : mm.nUserPages < ptrsPerTable :=
    Nat.lt_of_le_of_lt (Nat.le_trans (Nat.le_add_right _ k) hk) maxProcessPages_lt
  unfold costOf
  split
  next hzero => exact hzero.symm
  next =>
    rw [h.missingTables_eq_zero hlt htable]
    rfl

theorem costOf_emptyMm (r : Ram) (n : Nat) : costOf emptyMm r n = copyCost n := by
  have htables : missingTables r emptyMm.pgd (emptyMm.nUserPages * pageSize) = 4 :=
    missingTables_zero r _
  rw [costOf, htables]
  rfl

/-- The copy of `k` more pages has come to its end. -/
def Copied (src : MmStruct) (k : Nat) (mm : MmStruct) (r : Ram) : Prop :=
  (copyPages src (List.range' mm.nUserPages k) mm r).2.2.corrupted = false ∧
    (copyPages src (List.range' mm.nUserPages k) mm r).2.1.nUserPages = mm.nUserPages + k

namespace Space

variable {mm : MmStruct} {r : Ram} {t : Radix.Tree Nat} {R : Nat → Prop}

/-- The first of the remaining pages pays for the tables. -/
theorem copied_iff (src : MmStruct) {k : Nat} (h : Space mm r t R 0)
    (hk : mm.nUserPages + k ≤ maxProcessPages)
    (hsrc : ∀ i < mm.nUserPages + k, (src.userPages i).virtualAddress = i * pageSize) :
    Copied src k mm r ↔ r.Affords (costOf mm r k) := by
  induction k generalizing mm r t with
  | zero => exact ⟨fun hc => ⟨hc.1, Ram.spare_zero r⟩, fun ha => ⟨ha.1, rfl⟩⟩
  | succ k ih =>
      have hva := hsrc mm.nUserPages (by omega)
      rw [costOf, if_neg (Nat.succ_ne_zero k), Copied, List.range'_succ, Demoos.copyPages, hva]
      by_cases hpage : r.getFreePage.1 = 0
      · have hall := (Ram.getFreePage_eq_zero hpage).2
        rw [allocateUserPage_of_zero hpage, if_pos rfl]
        refine iff_of_false (fun hc => ?_) fun ha => ?_
        · have hn : mm.nUserPages = mm.nUserPages + (k + 1) := hc.2
          omega
        · have hzero := ha.2.eq_zero hall
          omega
      · have hx := Ram.takes_getFreePage hpage
        have hne : r.getFreePage.1 + vaStart ≠ 0 := by omega
        rw [allocateUserPage_of_ne hpage, if_neg hne]
        dsimp only
        rw [Nat.add_sub_cancel]
        generalize r.getFreePage.1 = x at *
        generalize r.getFreePage.2 = r₁ at *
        have hmap (n : Nat) : (Demoos.mapPage mm r₁ (mm.nUserPages * pageSize) x).2.Affords n ↔
            r.Affords (n + 1 + missingTables r mm.pgd (mm.nUserPages * pageSize)) := by
          have htaken : ∀ g, (R g ∨ mm.Frame g) ∨ g = x → r₁.Taken g := fun g hg =>
            (hx.taken g).mpr (hg.imp (h.taken g) id)
          rw [(h.tables.takes hx).affords_mapPage htaken, h.tables.missingTables_eq, Ram.Affords,
            Ram.Affords, hx.flags.2, hx.spare_iff]
          exact and_congr_right fun _ => iff_of_eq (congrArg r.Spare (by omega))
        by_cases hsane : (Demoos.mapPage mm r₁ (mm.nUserPages * pageSize) x).2.corrupted = false
        · obtain ⟨t₁, hadds⟩ := h.mapPage (by omega) hx hsane
          have hcopied := hadds.memzero.fill pageSize
            (((Demoos.mapPage mm r₁ (mm.nUserPages * pageSize) x).2.memzero x).byte
              (src.userPages mm.nUserPages).physicalAddress)
          have hn := hcopied.nUserPages
          have hend := ih hcopied.space (by omega) fun i hi => hsrc i (by omega)
          rw [hcopied.space.costOf_eq (by omega) hcopied.table, Copied, hn, Nat.add_assoc,
            Nat.add_comm 1] at hend
          exact hend.trans (hmap k)
        · refine iff_of_false (fun hc => hsane ?_) fun ha => hsane ((hmap k).mpr ha).1
          have hend := (ages_copyPages ..).sane hc.1
          exact hend

end Space

theorem Marked.copyPages {src : MmStruct} (is : List Nat) {mm : MmStruct} {r : Ram}
    (h : Marked mm r) :
    Marked (Demoos.copyPages src is mm r).2.1 (Demoos.copyPages src is mm r).2.2 := by
  induction is generalizing mm r with
  | nil => exact h
  | cons i is ih =>
      rw [Demoos.copyPages]
      by_cases hpage : r.getFreePage.1 = 0
      · rw [allocateUserPage_of_zero hpage, if_pos rfl]
        exact h
      · have hne : r.getFreePage.1 + vaStart ≠ 0 := by omega
        have hx := Ram.takes_getFreePage hpage
        have htaken : Marked mm r.getFreePage.2 := fun hc => h (hx.flags.2.symm.trans hc)
        rw [allocateUserPage_of_ne hpage, if_neg hne]
        dsimp only
        rw [Nat.add_sub_cancel]
        refine ih ?_
        exact htaken.mapPage

namespace Machine

variable {m : Machine} {p : Pid} {r : Ram} {x : Nat}

theorem childSpace_false (m : Machine) (p : Pid) (r : Ram) :
    m.childSpace p false r = (copyPages (m.mm p) (List.range' emptyMm.nUserPages
      (m.mm p).nUserPages) emptyMm r).2 := by
  change (copyPages _ _ _ _).2 = _
  rw [List.range_eq_range']
  rfl

/-- A child with all pages has found them. -/
theorem Orderly.affords_iff (h : m.Orderly) (hp : p < m.nProcesses) (hx : m.ram.Takes x r) :
    (m.childSpace p false r).2.corrupted = false ∧
        (m.childSpace p false r).1.nUserPages = (m.mm p).nUserPages ↔
      r.Spare (copyCost (m.mm p).nUserPages) := by
  obtain ⟨t, ht⟩ := h.owned.space p hp
  have hsane : r.corrupted = false := hx.flags.2.trans h.sane
  have hn : emptyMm.nUserPages + (m.mm p).nUserPages = (m.mm p).nUserPages := Nat.zero_add _
  have hcopied := (Space.empty (r := r) (R := fun _ => False) fun _ => False.elim).copied_iff
    (m.mm p) (hn.trans_le ht.few) fun i hi => ht.address i (hn ▸ hi)
  rw [costOf_emptyMm, Copied, ← childSpace_false, hn] at hcopied
  exact hcopied.trans (and_iff_right hsane)

/-- A child that has missed no page has them all. -/
theorem Orderly.copied_of_supply (h : m.Orderly) (hp : p < m.nProcesses) (hx : m.ram.Takes x r)
    (hsupply : (m.childSpace p false r).2.exhausted = false) :
    (m.childSpace p false r).2.corrupted = false ∧
      (m.childSpace p false r).1.nUserPages = (m.mm p).nUserPages := by
  have hsane := (m.ages_childSpace p false r).sound (hx.flags.2.trans h.sane) hsupply
  exact ⟨hsane, (h.owned.forked hp hx hsane).full hsupply⟩

theorem Orderly.completeCopy (h : m.Orderly) (hp : p < m.nProcesses) (hx : m.ram.Takes x r)
    (hspare : r.Spare (copyCost (m.mm p).nUserPages)) :
    CompleteCopy (m.mm p) m.ram (m.childSpace p false r).1 (m.childSpace p false r).2 := by
  obtain ⟨hsane, hn⟩ := (h.affords_iff hp hx).mpr hspare
  obtain ⟨t, ht⟩ := h.owned.space p hp
  have hforked := h.owned.forked hp hx hsane
  obtain ⟨t', hs⟩ := hforked.space
  refine ⟨hn, fun i hi => ?_, fun i hi => ?_, fun i hi j hj => ?_, fun i hi => ?_, fun i hi => ?_⟩
  · rw [hs.address i (hn ▸ hi), ht.address i hi]
  · have hlt : i < ptrsPerTable :=
      Nat.lt_trans (Nat.lt_of_lt_of_le hi ht.few) maxProcessPages_lt
    rw [ht.address i hi, hs.tables.translate_eq, tableKey_page hlt]
    exact hs.mapped i (hn ▸ hi)
  · have hold : m.ram.Taken ((m.mm p).userPages i).physicalAddress := ht.taken _ (.inr ⟨i, hi, rfl⟩)
    have hne : ((m.mm p).userPages i).physicalAddress ≠ x := fun he => hx.free (he ▸ hold)
    refine (hforked.contents i (hn ▸ hi) j hj).trans ?_
    dsimp only
    rw [hx.byte, update_of_ne hne]
  · exact hs.taken _ (.inr ⟨i, hi, rfl⟩)
  · exact (hs.tables.own _ (hs.tables.tracked.sound i hi)).1

/-- A fork makes a complete copy exactly when there are enough pages. -/
theorem Orderly.completeCopy_iff (h : m.Orderly) (hp : p < m.nProcesses) (hx : m.ram.Takes x r) :
    CompleteCopy (m.mm p) m.ram (m.childSpace p false r).1 (m.childSpace p false r).2 ↔
      r.Spare (copyCost (m.mm p).nUserPages) := by
  refine ⟨fun hcopy => (h.affords_iff hp hx).mp ⟨?_, hcopy.nUserPages⟩, h.completeCopy hp hx⟩
  have hmarked : Marked emptyMm r := fun hc => by
    rw [hx.flags.2, h.sane] at hc
    exact absurd hc nofun
  refine Bool.eq_false_iff.mpr fun hc => ?_
  have htables := hcopy.tables
  rw [childSpace_false] at hc htables
  obtain ⟨i, hi, hzero⟩ := hmarked.copyPages _ hc
  exact (htables i hi).isPage.ne_zero hzero

/-- The child sees what its parent sees, each page in a frame of its own, and the others see
what they have seen. -/
structure Replicated (m : Machine) (p child : Pid) (m' : Machine) : Prop where
  mapped : ∀ va < 2 ^ 48, (translate m'.ram (m'.mm child).pgd va).isSome =
    (translate m.ram (m.mm p).pgd va).isSome
  bytes : ∀ va < 2 ^ 48,
    userByte (m'.mm child).pgd m'.ram va = userByte (m.mm p).pgd m.ram va
  fresh : ∀ va < 2 ^ 48, ∀ g, translate m'.ram (m'.mm child).pgd va = some g →
    ¬ m.ram.Taken g ∧ m'.ram.Taken g
  distinct : ∀ va < 2 ^ 48, ∀ va' < 2 ^ 48, ∀ g, translate m'.ram (m'.mm child).pgd va = some g →
    translate m'.ram (m'.mm child).pgd va' = some g → va / pageSize = va' / pageSize
  others : ∀ q < m.nProcesses, m'.mm q = m.mm q ∧ ∀ va,
    translate m'.ram (m'.mm q).pgd va = translate m.ram (m.mm q).pgd va ∧
      userByte (m'.mm q).pgd m'.ram va = userByte (m.mm q).pgd m.ram va

theorem isSome_userByte (pgd : Nat) (r : Ram) (va : Nat) :
    (userByte pgd r va).isSome = (translate r pgd va).isSome := Option.isSome_map

/-- The machine after a fork, with the PCB in the page `x`. -/
def forkedWith (m : Machine) (p : Pid) (x : Nat) (r : Ram) (kernelThread : Bool) : Machine :=
  (({ m with ram := r } : Machine).register (x + vaStart) kernelThread).withSpace m.nProcesses
    (m.childSpace p kernelThread r)

theorem mm_forkedWith {kernelThread : Bool} : (m.forkedWith p x r kernelThread).mm m.nProcesses =
    (m.childSpace p kernelThread r).1 := update_self ..

theorem ram_forkedWith {kernelThread : Bool} :
    (m.forkedWith p x r kernelThread).ram = (m.childSpace p kernelThread r).2 := rfl

theorem files_forkedWith {kernelThread : Bool} :
    (m.forkedWith p x r kernelThread).files m.nProcesses = fun _ => 0 := update_self ..

theorem Orderly.replicated (h : m.Orderly) (hp : p < m.nProcesses) (hx : m.ram.Takes x r)
    (hspare : r.Spare (copyCost (m.mm p).nUserPages)) :
    m.Replicated p m.nProcesses (m.forkedWith p x r false) := by
  obtain ⟨hsane, hn⟩ := (h.affords_iff hp hx).mpr hspare
  obtain ⟨t, ht⟩ := h.owned.space p hp
  have hforked := h.owned.forked hp hx hsane
  obtain ⟨t', hs⟩ := hforked.space
  have hold : ∀ g, m.ram.Taken g → r.Taken g ∧ r.byte g = m.ram.byte g := fun g hg => by
    have hne : g ≠ x := fun he => hx.free (he ▸ hg)
    refine ⟨(hx.taken g).mpr (.inl hg), ?_⟩
    rw [hx.byte, update_of_ne hne]
  have hkeep : ∀ g, m.ram.Taken g → (m.childSpace p false r).2.Taken g ∧
      (m.childSpace p false r).2.byte g = m.ram.byte g := fun g hg =>
    ⟨hs.taken g (.inl (hold g hg).1), (hforked.unwritten g (hold g hg).1).trans (hold g hg).2⟩
  have hbytes : ∀ va < 2 ^ 48,
      userByte (m.childSpace p false r).1.pgd (m.childSpace p false r).2 va =
        userByte (m.mm p).pgd m.ram va := fun va hva => by
    have hparent : Contents (m.mm p) m.ram fun i => r.byte ((m.mm p).userPages i).physicalAddress :=
      fun i hi j _ => congrFun (hold _ (ht.taken _ (.inr ⟨i, hi, rfl⟩))).2.symm j
    rw [hs.userByte_eq hforked.contents hva, ht.userByte_eq hparent hva, hn]
  refine ⟨fun va hva => ?_, fun va hva => ?_, fun va hva g hg => ?_,
    fun va hva va' hva' g hg hg' => ?_, fun q hq => ?_⟩
  · rw [mm_forkedWith, ram_forkedWith, ← isSome_userByte, ← isSome_userByte, hbytes va hva]
  · rw [mm_forkedWith, ram_forkedWith]
    exact hbytes va hva
  · rw [mm_forkedWith, ram_forkedWith] at hg
    have hframe := hs.translate_eq hg
    exact ⟨fun hm => hs.apart g hframe (hold g hm).1, hs.taken g (.inr hframe)⟩
  · rw [mm_forkedWith, ram_forkedWith] at hg hg'
    exact hs.translate_inj hva hva' hg hg'
  · have hmm : (m.forkedWith p x r false).mm q = m.mm q :=
      (update_of_ne (Nat.ne_of_lt hq) _ _).trans (update_of_ne (Nat.ne_of_lt hq) _ _)
    obtain ⟨tq, hq⟩ := h.owned.space q hq
    rw [hmm, ram_forkedWith]
    exact ⟨rfl, hq.unchanged hkeep⟩

end Machine

end Demoos
