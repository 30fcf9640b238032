import Demoos.Memory.Isolation
import Demoos.Memory.Walks

/-!
# Running out of pages

`allocate_user_page` takes one page, and one more for each table that its walk lacks.  When
`get_free_page` has the first of them but not all, then `map_page` goes on with the
address `0` as a table.

A process may have tables before it has any page: `syscall_exec` releases the user pages and
keeps the tables.
-/

namespace Demoos

open Function (update update_self update_of_ne)

/-- `allocate_user_page` fails without a trace, or maps a page of the pool by tables that are
pages of the pool. -/
def Reported (mm : MmStruct) (r : Ram) (va : Nat) (result : Nat) (mm' : MmStruct) (r' : Ram) :
    Prop :=
  (result = 0 ∧ mm' = mm ∧ r'.memoryPages = r.memoryPages ∧ r'.byte = r.byte) ∨
  ∃ g, result = g + vaStart ∧ IsPage g ∧ ¬ r.Taken g ∧ r'.Taken g ∧
    translate r' mm'.pgd va = some g ∧
    (∀ k < 4, ∃ x, tableAt r' mm'.pgd va k = some x ∧ r'.Taken x) ∧
    ∀ i < mm'.nKernelPages, mm'.kernelPages i ≠ 0

/-- The tables that the walk of an address lacks. -/
def missingTables (r : Ram) (pgd va : Nat) : Nat :=
  (List.range 4).countP fun k => (tableAt r pgd va k).isNone

namespace Ram

variable {r r' : Ram} {n : Nat}

/-- Nobody has gone on without a page, and `n` more can be had. -/
def Affords (r : Ram) (n : Nat) : Prop := r.corrupted = false ∧ r.Spare n

theorem affords_getFreePage :
    (r.getFreePage.2.relyOn r.getFreePage.1).Affords n ↔ r.Affords (n + 1) := by
  by_cases hpage : r.getFreePage.1 = 0
  · obtain ⟨hram, hall⟩ := getFreePage_eq_zero hpage
    constructor
    · exact fun h => absurd hpage (corrupted_relyOn h.1).2
    · exact fun h => absurd (h.2.eq_zero hall) (Nat.succ_ne_zero n)
  · have htakes := takes_getFreePage hpage
    rw [relyOn_eq hpage, Affords, Affords, htakes.flags.2, htakes.spare_iff]

end Ram

namespace Tables

variable {mm : MmStruct} {r : Ram} {t : Radix.Tree Nat} {R : Nat → Prop} {va g page k n : Nat}

/-- What level `k` of a walk costs. -/
def cost (t : Radix.Tree Nat) (va k : Nat) : Nat := if t k (tableKey va k) = none then 1 else 0

theorem affords_mapLevel (h : Tables mm r t R) (hk : k < 3) (hg : t k (tableKey va k) = some g) :
    (Demoos.mapLevel (39 - 9 * k) va (mm, g, r)).2.2.Affords n ↔
      r.Affords (n + cost t va (k + 1)) := by
  have hentry := h.holds.entries k (by omega) _ g hg _ (tableIndex_lt va (39 - 9 * k))
  rw [← tableKey_succ va (by omega)] at hentry
  unfold Demoos.mapLevel cost
  dsimp only
  cases hnext : t (k + 1) (tableKey va (k + 1)) with
  | none =>
      rw [hnext, encode] at hentry
      rw [mapTable_of_zero hentry, if_pos rfl]
      exact r.affords_getFreePage
  | some x =>
      have hx : IsFrame x := (h.own x ⟨k + 1, by omega, _, hnext⟩).1.isPage.isFrame
      rw [hnext] at hentry
      rw [mapTable_of_ne (by rw [hentry]; exact encode_ne_zero hx _), if_neg (by simp)]
      rfl

theorem affords_ensurePgd (h : Tables mm r t R) :
    (Demoos.ensurePgd mm r).2.Affords n ↔ r.Affords (n + cost t va 0) := by
  unfold Demoos.ensurePgd cost
  rw [tableKey_zero, h.root]
  split
  next =>
    rw [if_pos rfl]
    exact r.affords_getFreePage
  next =>
    rw [if_neg nofun]
    rfl

theorem cost_congr {t' : Radix.Tree Nat} (h : t' k = t k) : cost t' va k = cost t va k := by
  unfold cost
  rw [h]

/-- `map_page` finds all its pages exactly when there are enough of them. -/
theorem affords_mapPage (h : Tables mm r t R) (hR : ∀ g, R g → r.Taken g) :
    (Demoos.mapPage mm r va page).2.Affords n ↔
      r.Affords (n + cost t va 3 + cost t va 2 + cost t va 1 + cost t va 0) := by
  let pgd := Demoos.ensurePgd mm r
  let pud := Demoos.mapLevel pgdShift va (pgd.1, pgd.1.pgd, pgd.2)
  let pmd := Demoos.mapLevel pudShift va pud
  let pte := Demoos.mapLevel pmdShift va pmd
  -- As long as the pages suffice, the tables are in order, and the next level has its cost.
  have hpud (hsane : pgd.2.corrupted = false) :
      ∃ t', Tables pgd.1 pgd.2 t' R ∧ (∀ g, R g → pgd.2.Taken g) ∧
        t' 0 (tableKey va 0) = some pgd.1.pgd ∧ ∀ j ≤ 4, 0 < j → t' j = t j := by
    obtain ⟨t₀, h₀, hroot, hbelow⟩ := h.ensurePgd hR hsane va
    exact ⟨t₀, h₀.tables, fun g hg => h₀.keeps.taken g (hR g hg), hroot, hbelow⟩
  have hpmd (hsane : pud.2.2.corrupted = false) :
      ∃ t', Tables pud.1 pud.2.2 t' R ∧ (∀ g, R g → pud.2.2.Taken g) ∧
        t' 1 (tableKey va 1) = some pud.2.1 ∧ ∀ j ≤ 4, 1 < j → t' j = t j := by
    obtain ⟨t₀, h₀, hR₀, hroot, hbelow⟩ := hpud ((Ram.Ages.mapLevel (.refl _)).sane hsane)
    obtain ⟨t₁, h₁, hg, hdeep⟩ := h₀.mapLevel hR₀ (by decide : 0 < 3) hroot hsane
    exact ⟨t₁, h₁.tables, fun g hg => h₁.keeps.taken g (hR₀ g hg), hg,
      fun j hj hlt => (hdeep j hlt).trans (hbelow j hj (by omega))⟩
  have hpte (hsane : pmd.2.2.corrupted = false) :
      ∃ t', Tables pmd.1 pmd.2.2 t' R ∧ (∀ g, R g → pmd.2.2.Taken g) ∧
        t' 2 (tableKey va 2) = some pmd.2.1 ∧ ∀ j ≤ 4, 2 < j → t' j = t j := by
    obtain ⟨t₁, h₁, hR₁, hg₁, hbelow⟩ := hpmd ((Ram.Ages.mapLevel (.refl _)).sane hsane)
    obtain ⟨t₂, h₂, hg, hdeep⟩ := h₁.mapLevel hR₁ (by decide : 1 < 3) hg₁ hsane
    exact ⟨t₂, h₂.tables, fun g hg => h₂.keeps.taken g (hR₁ g hg), hg,
      fun j hj hlt => (hdeep j hlt).trans (hbelow j hj (by omega))⟩
  have hcost₀ : pgd.2.Affords (n + cost t va 3 + cost t va 2 + cost t va 1) ↔
      r.Affords (n + cost t va 3 + cost t va 2 + cost t va 1 + cost t va 0) := h.affords_ensurePgd
  have hcost₁ (hsane : pgd.2.corrupted = false) (n : Nat) :
      pud.2.2.Affords n ↔ pgd.2.Affords (n + cost t va 1) := by
    obtain ⟨t', h', _, hg, hbelow⟩ := hpud hsane
    rw [← cost_congr (hbelow 1 (by decide) (by decide))]
    exact h'.affords_mapLevel (by decide : 0 < 3) hg
  have hcost₂ (hsane : pud.2.2.corrupted = false) (n : Nat) :
      pmd.2.2.Affords n ↔ pud.2.2.Affords (n + cost t va 2) := by
    obtain ⟨t', h', _, hg, hbelow⟩ := hpmd hsane
    rw [← cost_congr (hbelow 2 (by decide) (by decide))]
    exact h'.affords_mapLevel (by decide : 1 < 3) hg
  have hcost₃ (hsane : pmd.2.2.corrupted = false) :
      pte.2.2.Affords n ↔ pmd.2.2.Affords (n + cost t va 3) := by
    obtain ⟨t', h', _, hg, hbelow⟩ := hpte hsane
    rw [← cost_congr (hbelow 3 (by decide) (by decide))]
    exact h'.affords_mapLevel (by decide : 2 < 3) hg
  constructor
  · intro (ha : pte.2.2.Affords n)
    have hs₃ : pmd.2.2.corrupted = false := (Ram.Ages.mapLevel (.refl _)).sane ha.1
    have hs₂ : pud.2.2.corrupted = false := (Ram.Ages.mapLevel (.refl _)).sane hs₃
    have hs₁ : pgd.2.corrupted = false := (Ram.Ages.mapLevel (.refl _)).sane hs₂
    exact hcost₀.mp ((hcost₁ hs₁ _).mp ((hcost₂ hs₂ _).mp ((hcost₃ hs₃).mp ha)))
  · intro ha
    have ha₁ := hcost₀.mpr ha
    have ha₂ := (hcost₁ ha₁.1 _).mpr ha₁
    have ha₃ := (hcost₂ ha₂.1 _).mpr ha₂
    exact (hcost₃ ha₃.1).mpr ha₃

theorem missingTables_eq (h : Tables mm r t R) (va : Nat) :
    missingTables r mm.pgd va = cost t va 3 + cost t va 2 + cost t va 1 + cost t va 0 := by
  have hnone : ∀ k ≤ 4, (if (tableAt r mm.pgd va k).isNone = true then 1 else 0) = cost t va k := by
    intro k hk
    rw [h.tableAt_eq va hk, cost]
    exact if_congr Option.isNone_iff_eq_none rfl rfl
  unfold missingTables
  rw [show List.range 4 = [0, 1, 2, 3] from rfl]
  simp only [List.countP_cons, List.countP_nil]
  rw [hnone 0 (by decide), hnone 1 (by decide), hnone 2 (by decide), hnone 3 (by decide)]
  omega

end Tables

/-! ## Tables at the address `0` -/

/-- Whoever goes on without a page has the address `0` among its tables. -/
def Marked (mm : MmStruct) (r : Ram) : Prop :=
  r.corrupted = true → ∃ i < mm.nKernelPages, mm.kernelPages i = 0

theorem Marked.push {mm : MmStruct} {r r' : Ram} {x : Nat} (h : Marked mm r)
    (hr : r'.corrupted = true → r.corrupted = true ∨ x = 0) : Marked (mm.pushKernelPage x) r' := by
  intro hcorrupted
  by_cases hx : x = 0
  · refine ⟨mm.nKernelPages, Nat.lt_succ_self _, ?_⟩
    rw [kernelPages_push, if_pos rfl, hx]
  · obtain ⟨i, hi, hzero⟩ := h ((hr hcorrupted).resolve_right hx)
    refine ⟨i, Nat.lt_succ_of_lt hi, ?_⟩
    rw [kernelPages_push, if_neg (Nat.ne_of_lt hi), hzero]

theorem corrupted_getFreePage {r : Ram}
    (h : (r.getFreePage.2.relyOn r.getFreePage.1).corrupted = true) :
    r.corrupted = true ∨ r.getFreePage.1 = 0 := by
  by_cases hpage : r.getFreePage.1 = 0
  · exact .inr hpage
  · rw [Ram.relyOn_eq hpage, (Ram.takes_getFreePage hpage).flags.2] at h
    exact .inl h

theorem Marked.ensurePgd {mm : MmStruct} {r : Ram} (h : Marked mm r) :
    Marked (Demoos.ensurePgd mm r).1 (Demoos.ensurePgd mm r).2 := by
  unfold Demoos.ensurePgd
  split
  next =>
    have hpgd : Marked { mm with pgd := r.getFreePage.1 } r := h
    exact hpgd.push corrupted_getFreePage
  next => exact h

theorem Marked.mapLevel {shift va : Nat} {s : MmStruct × Nat × Ram} (h : Marked s.1 s.2.2) :
    Marked (Demoos.mapLevel shift va s).1 (Demoos.mapLevel shift va s).2.2 := by
  unfold Demoos.mapLevel
  dsimp only
  by_cases hentry : s.2.2.readEntry s.2.1 (tableIndex va shift) = 0
  · rw [mapTable_of_zero hentry, if_pos rfl]
    exact h.push corrupted_getFreePage
  · rw [mapTable_of_ne hentry, if_neg nofun]
    exact h

theorem Marked.mapPage {mm : MmStruct} {r : Ram} {va page : Nat} (h : Marked mm r) :
    Marked (Demoos.mapPage mm r va page).1 (Demoos.mapPage mm r va page).2 :=
  h.ensurePgd.mapLevel.mapLevel.mapLevel

/-! ## The memory of a process -/

/-- The memory of a process at any time.  Its tables are in order, and nobody has gone on
without a page. -/
structure Charted (mm : MmStruct) (r : Ram) : Prop where
  tables : ∃ t, Tables mm r t fun _ => False
  sane : r.corrupted = false

theorem Built.charted {mm : MmStruct} {r : Ram} (h : Built mm r) : Charted mm r :=
  ⟨h.tables, h.sane⟩

/-- Others take and free what is not among the tables. -/
theorem Charted.others {mm mm' : MmStruct} {r r' : Ram} (h : Charted mm r)
    (hmm : mm'.pgd = mm.pgd ∧ mm'.nKernelPages = mm.nKernelPages ∧ mm'.kernelPages = mm.kernelPages)
    (htaken : ∀ i < mm.nKernelPages, r'.Taken (mm.kernelPages i))
    (hbyte : ∀ i < mm.nKernelPages, r'.byte (mm.kernelPages i) = r.byte (mm.kernelPages i))
    (hsane : r'.corrupted = false) : Charted mm' r' := by
  obtain ⟨t, ht⟩ := h.tables
  refine ⟨⟨t, ht.congr hmm (fun g hg => ?_) fun _ _ => id⟩, hsane⟩
  obtain ⟨i, hi, rfl⟩ := ht.tracked.complete g hg
  exact ⟨htaken i hi, hbyte i hi⟩

/-- `syscall_exec` frees the user pages, and the tables stay. -/
theorem Charted.freeUserPages {mm : MmStruct} {r : Ram} (h : Charted mm r)
    (hpage : ∀ i < mm.nUserPages, IsPage (mm.userPages i).physicalAddress)
    (hapart : ∀ i < mm.nUserPages, ∀ j < mm.nKernelPages,
      (mm.userPages i).physicalAddress ≠ mm.kernelPages j) :
    Charted (Demoos.freeUserPages mm r).1 (Demoos.freeUserPages mm r).2 := by
  obtain ⟨t, ht⟩ := h.tables
  obtain ⟨mm', r', he, hfreed⟩ := freed hpage
  rw [show Demoos.freeUserPages mm r = (mm', r') from he]
  refine h.others hfreed.tables (fun j hj => ?_) (fun j hj => ?_) (hfreed.flags.2.trans h.sane)
  · exact (hfreed.taken _).mpr ⟨(ht.own _ (ht.tracked.sound j hj)).1, fun i hi => hapart i hi j hj⟩
  · exact hfreed.byte _ fun i hi => hapart i hi j hj

namespace Machine

variable {m : Machine} {p : Pid}

/-- So is every process that system calls lead to, -/
theorem Orderly.charted (h : m.Orderly) (hp : p < m.nProcesses) : Charted (m.mm p) m.ram := by
  obtain ⟨t, ht⟩ := h.owned.space p hp
  exact ⟨⟨t, ht.tables.congr ⟨rfl, rfl, rfl⟩ (fun g hg => ⟨(ht.tables.own g hg).1, rfl⟩)
    fun _ _ => id⟩, h.sane⟩

/-- and it stays so when `syscall_exec` has freed its pages. -/
theorem Orderly.charted_freeUserPages (h : m.Orderly) (hp : p < m.nProcesses) :
    Charted (freeUserPages (m.mm p) m.ram).1 (freeUserPages (m.mm p) m.ram).2 := by
  obtain ⟨t, ht⟩ := h.owned.space p hp
  refine (h.charted hp).freeUserPages (fun i hi => (ht.taken _ (.inr ⟨i, hi, rfl⟩)).isPage)
    fun i hi j hj he => ?_
  exact ht.frame_apart ⟨i, hi, rfl⟩ (he ▸ ht.tables.tracked.sound j hj)

end Machine

/-! ## The report -/

variable {mm : MmStruct} {r : Ram} {va : Nat}

theorem getFreePage_of_full (hall : ∀ g, IsPage g → r.Taken g) : r.getFreePage.1 = 0 := by
  by_contra hne
  have htakes := Ram.takes_getFreePage hne
  exact htakes.free (hall _ htakes.isPage)

theorem reported_of_none (hall : ∀ g, IsPage g → r.Taken g) :
    Reported mm r va (allocateUserPage mm r va).1 (allocateUserPage mm r va).2.1
      (allocateUserPage mm r va).2.2 := by
  rw [allocateUserPage_of_zero (getFreePage_of_full hall)]
  exact .inl ⟨rfl, rfl, rfl, rfl⟩

theorem not_corrupted {r : Ram} {page : Nat} (hr : r.corrupted = false)
    (hpages : ∀ i < (mapPage mm r va page).1.nKernelPages,
      (mapPage mm r va page).1.kernelPages i ≠ 0) :
    (mapPage mm r va page).2.corrupted = false := by
  have hmarked : Marked mm r := fun hc => by
    rw [hr] at hc
    exact absurd hc nofun
  refine Bool.eq_false_iff.mpr fun hc => ?_
  obtain ⟨i, hi, hzero⟩ := hmarked.mapPage hc
  exact hpages i hi hzero

theorem Tables.reported {t : Radix.Tree Nat} {R : Nat → Prop} {r' : Ram} {x : Nat}
    (h : Tables mm r' t R) (hR : ∀ g, R g → r'.Taken g) (hx : r.Takes x r')
    (hok : (Demoos.mapPage mm r' va x).2.corrupted = false) :
    Reported mm r va (x + vaStart) (Demoos.mapPage mm r' va x).1 (Demoos.mapPage mm r' va x).2 := by
  obtain ⟨t', hmaps⟩ := h.mapPage hR hx.isPage.isFrame hok
  have hvalue : t' 4 (tableKey va 4) = some x := (hmaps.value _).trans (if_pos rfl)
  obtain ⟨pte, hpte⟩ := hmaps.tables.parent (by decide : 3 < 4) hvalue
  obtain ⟨pmd, hpmd⟩ := hmaps.tables.parent (by decide : 2 < 4) hpte
  obtain ⟨pud, hpud⟩ := hmaps.tables.parent (by decide : 1 < 4) hpmd
  obtain ⟨pgd, hpgd⟩ := hmaps.tables.parent (by decide : 0 < 4) hpud
  have hwalk : ∀ k < 4, ∃ g, t' k (tableKey va k) = some g := by
    intro k hk
    interval_cases k
    · exact ⟨pgd, hpgd⟩
    · exact ⟨pud, hpud⟩
    · exact ⟨pmd, hpmd⟩
    · exact ⟨pte, hpte⟩
  refine .inr ⟨x, rfl, hx.isPage, hx.free, hmaps.keeps.taken x ((hx.taken x).mpr (.inr rfl)), ?_,
    fun k hk => ?_, fun i hi => ?_⟩
  · rw [hmaps.tables.translate_eq, hvalue]
  · obtain ⟨g, hg⟩ := hwalk k hk
    rw [hmaps.tables.tableAt_eq va (Nat.le_of_lt hk)]
    exact ⟨g, hg, (hmaps.tables.own g ⟨k, hk, _, hg⟩).1⟩
  · exact (hmaps.tables.own _ (hmaps.tables.tracked.sound i hi)).1.isPage.ne_zero

theorem Charted.affords_iff (h : Charted mm r) {g : Nat} {r' : Ram} (hx : r.Takes g r') :
    (Demoos.mapPage mm r' va g).2.corrupted = false ↔ r.Spare (1 + missingTables r mm.pgd va) := by
  obtain ⟨t, ht⟩ := h.tables
  have hsane : r'.corrupted = false := hx.flags.2.trans h.sane
  have hafford : (Demoos.mapPage mm r' va g).2.Affords 0 ↔
      r'.Affords (0 + Tables.cost t va 3 + Tables.cost t va 2 + Tables.cost t va 1 +
        Tables.cost t va 0) :=
    (ht.takes hx).affords_mapPage fun x hxg => (hx.taken x).mpr (.inr (hxg.resolve_left id))
  rw [Nat.zero_add, ← ht.missingTables_eq va] at hafford
  rw [Nat.add_comm, ← hx.spare_iff]
  exact ⟨fun hok => (hafford.mp ⟨hok, Ram.spare_zero _⟩).2, fun hs => (hafford.mpr ⟨hsane, hs⟩).1⟩

theorem Charted.spare_of_reported (h : Charted mm r) (hpage : r.getFreePage.1 ≠ 0)
    (hreport : Reported mm r va (allocateUserPage mm r va).1 (allocateUserPage mm r va).2.1
      (allocateUserPage mm r va).2.2) : r.Spare (1 + missingTables r mm.pgd va) := by
  have hx := Ram.takes_getFreePage hpage
  rw [allocateUserPage_of_ne hpage] at hreport
  rcases hreport with ⟨hzero, _⟩ | ⟨g, _, _, _, _, _, _, hpages⟩
  · exact absurd hzero (Nat.ne_of_gt (Nat.add_pos_right _ (by decide)))
  · exact (h.affords_iff hx).mp (not_corrupted (hx.flags.2.trans h.sane) hpages)

theorem Charted.reported_of_spare (h : Charted mm r) (hpage : r.getFreePage.1 ≠ 0)
    (hspare : r.Spare (1 + missingTables r mm.pgd va)) :
    Reported mm r va (allocateUserPage mm r va).1 (allocateUserPage mm r va).2.1
      (allocateUserPage mm r va).2.2 := by
  obtain ⟨t, ht⟩ := h.tables
  have hx := Ram.takes_getFreePage hpage
  rw [allocateUserPage_of_ne hpage]
  exact (ht.takes hx).reported (fun g hg => (hx.taken g).mpr (.inr (hg.resolve_left id))) hx
    ((h.affords_iff hx).mpr hspare)

/-- The report is right when there is no page at all, and when there are enough. -/
theorem Charted.reported_iff (h : Charted mm r) :
    Reported mm r va (allocateUserPage mm r va).1 (allocateUserPage mm r va).2.1
        (allocateUserPage mm r va).2.2 ↔
      (∀ g, IsPage g → r.Taken g) ∨ r.Spare (1 + missingTables r mm.pgd va) := by
  by_cases hpage : r.getFreePage.1 = 0
  · have hall := (Ram.getFreePage_eq_zero hpage).2
    exact ⟨fun _ => .inl hall, fun _ => reported_of_none hall⟩
  · refine ⟨fun hreport => .inr (h.spare_of_reported hpage hreport), ?_⟩
    rintro (hall | hspare)
    · have hx := Ram.takes_getFreePage hpage
      exact absurd (hall _ hx.isPage) hx.free
    · exact h.reported_of_spare hpage hspare

/-- All pages but the first are taken. -/
def lastPage : Ram := ⟨fun i => i != 0, fun _ _ => 0, false, false⟩

/-- A process that has had a page at the address `0`, which is the last page now. -/
def released : MmStruct × Ram :=
  let page := allocateUserPage emptyMm Machine.boot.ram 0
  let s := freeUserPages page.2.1 page.2.2
  (s.1, { s.2 with memoryPages := lastPage.memoryPages })

theorem taken_lastPage {r : Ram} {g : Nat} (hr : r.memoryPages = lastPage.memoryPages)
    (hg : IsPage g) (hne : g ≠ pageAddress 0) : r.Taken g := by
  obtain ⟨i, hi, rfl⟩ := hg
  refine (Ram.taken_iff hi).mpr ?_
  rw [hr]
  exact bne_iff_ne.mpr fun hzero => hne (by rw [hzero])

theorem isPage_first : IsPage (pageAddress 0) := ⟨0, by decide +kernel, rfl⟩

theorem kernelPages_released :
    ∀ j < released.1.nKernelPages, released.1.kernelPages j ≠ pageAddress 0 := by
  decide +kernel

theorem charted_released : Charted released.1 released.2 := by
  let page := allocateUserPage emptyMm Machine.boot.ram 0
  have hfirst : Machine.boot.ram.getFreePage.1 ≠ 0 := by decide +kernel
  have hbuilt : Built page.2.1 page.2.2 := by
    dsimp only [page]
    rw [allocateUserPage_of_ne hfirst]
    exact .mapPage (.empty rfl rfl (by decide +kernel))
      ⟨⟨by decide +kernel, by decide +kernel⟩, by decide +kernel, by decide +kernel,
        by decide +kernel⟩
  have huser : ∀ i < page.2.1.nUserPages, (page.2.1.userPages i).physicalAddress = pageAddress 0 := by
    decide +kernel
  have htable : ∀ j < page.2.1.nKernelPages, page.2.1.kernelPages j ≠ pageAddress 0 := by
    decide +kernel
  have hfreed : Charted (freeUserPages page.2.1 page.2.2).1 (freeUserPages page.2.1 page.2.2).2 := by
    refine hbuilt.charted.freeUserPages (fun i hi => ?_) fun i hi j hj => ?_
    · rw [huser i hi]
      exact isPage_first
    · rw [huser i hi]
      exact (htable j hj).symm
  obtain ⟨t, ht⟩ := hfreed.tables
  refine hfreed.others ⟨rfl, rfl, rfl⟩ (fun j hj => ?_) (fun _ _ => rfl) hfreed.sane
  exact taken_lastPage rfl (ht.own _ (ht.tracked.sound j hj)).1.isPage
    (kernelPages_released j hj)

/-- The tables of a released page are there, so the last page is enough. -/
theorem reported_released :
    missingTables released.2 released.1.pgd 0 = 0 ∧
      (∀ g, IsPage g → g ≠ pageAddress 0 → released.2.Taken g) ∧
      (allocateUserPage released.1 released.2 0).1 = pageAddress 0 + vaStart ∧
      Reported released.1 released.2 0 (allocateUserPage released.1 released.2 0).1
        (allocateUserPage released.1 released.2 0).2.1
        (allocateUserPage released.1 released.2 0).2.2 := by
  have hmissing : missingTables released.2 released.1.pgd 0 = 0 := by decide +kernel
  refine ⟨hmissing, fun g hg hne => taken_lastPage rfl hg hne, by decide +kernel,
    charted_released.reported_iff.mpr (.inr ?_)⟩
  rw [hmissing]
  exact Ram.spare_range (k := 0) (by decide +kernel) (by decide)

theorem takes_lastPage : ∃ r', lastPage.Takes (pageAddress 0) r' ∧ ∀ g, IsPage g → r'.Taken g := by
  have hfirst : lastPage.getFreePage.1 = pageAddress 0 := by decide +kernel
  have hx := Ram.takes_getFreePage (r := lastPage) (by rw [hfirst]; decide)
  rw [hfirst] at hx
  refine ⟨_, hx, fun g hg => (hx.taken g).mpr ?_⟩
  by_cases hzero : g = pageAddress 0
  · exact .inr hzero
  · exact .inl (taken_lastPage rfl hg hzero)

/-- The first page of a process, when it is the last page there is. -/
theorem not_reported_lastPage :
    Built emptyMm lastPage ∧
      ¬ Reported emptyMm lastPage 0 (allocateUserPage emptyMm lastPage 0).1
        (allocateUserPage emptyMm lastPage 0).2.1 (allocateUserPage emptyMm lastPage 0).2.2 := by
  have hbuilt : Built emptyMm lastPage := .empty rfl rfl rfl
  refine ⟨hbuilt, fun hreport => ?_⟩
  have hpage : lastPage.getFreePage.1 ≠ 0 := by decide +kernel
  obtain ⟨r', hx, hall⟩ := takes_lastPage
  have hspare := Nat.add_comm 1 _ ▸ hbuilt.charted.spare_of_reported hpage hreport
  have hnone := (hx.spare_iff.mpr hspare).eq_zero hall
  exact absurd hnone (by decide)

end Demoos
