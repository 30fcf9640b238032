import Demoos.Memory.Machine
import Mathlib.Data.List.Nodup

/-!
# Address spaces

A process has its user pages from the address `0` on, without gaps, and its tables map
these to its frames.  The functions that build or replace an address space keep that,
and they do not touch the pages of others.

While `exec` replaces the pages, the entries of the old ones are still in the tables.  As
many pages are free as it has freed, so it writes all of those entries again.
-/

namespace Demoos

open Function (update update_self update_of_ne update_apply)

/-- A page that the process has at a user address. -/
def MmStruct.Frame (mm : MmStruct) (g : Nat) : Prop :=
  ∃ i < mm.nUserPages, (mm.userPages i).physicalAddress = g

/-- The address space of a process, with the tables `t`, where the pages of `R` are
others'.  The entries from `nUserPages` up to `b` may be stale. -/
structure Space (mm : MmStruct) (r : Ram) (t : Radix.Tree Nat) (R : Nat → Prop) (b : Nat) :
    Prop where
  tables : Tables mm r t fun g => R g ∨ mm.Frame g
  taken : ∀ g, R g ∨ mm.Frame g → r.Taken g
  apart : ∀ g, mm.Frame g → ¬ R g
  once : ∀ i < mm.nUserPages, ∀ j < mm.nUserPages,
    (mm.userPages i).physicalAddress = (mm.userPages j).physicalAddress → i = j
  few : mm.nUserPages ≤ maxProcessPages
  address : ∀ i < mm.nUserPages, (mm.userPages i).virtualAddress = i * pageSize
  narrow : ∀ k < 4, ∀ key ≠ 0, t k key = none
  mapped : ∀ i < mm.nUserPages, t 4 i = some (mm.userPages i).physicalAddress
  unmapped : ∀ key, mm.nUserPages ≤ key → b ≤ key → t 4 key = none

/-- The bytes of the pages of `R` are the same. -/
def Unwritten (R : Nat → Prop) (r r' : Ram) : Prop := ∀ g, R g → r'.byte g = r.byte g

theorem Unwritten.refl (R : Nat → Prop) (r : Ram) : Unwritten R r r := fun _ _ => rfl

theorem Unwritten.trans {R : Nat → Prop} {r r' r'' : Ram} (h : Unwritten R r r')
    (h' : Unwritten R r' r'') : Unwritten R r r'' := fun g hg => (h' g hg).trans (h g hg)

theorem tableKey_page {i : Nat} (hi : i < ptrsPerTable) : tableKey (i * pageSize) 4 = i := by
  unfold tableKey pageSize
  unfold ptrsPerTable at hi
  omega

theorem tableKey_low {i k : Nat} (hi : i < ptrsPerTable) (hk : k < 4) :
    tableKey (i * pageSize) k = 0 := by
  unfold tableKey pageSize
  unfold ptrsPerTable at hi
  interval_cases k <;> omega

/-- The table that has the entries of the first addresses. -/
theorem Tables.lastTable {mm : MmStruct} {r : Ram} {t : Radix.Tree Nat} {R : Nat → Prop} {i g : Nat}
    (h : Tables mm r t R) (hi : i < ptrsPerTable) (hg : t 4 i = some g) :
    ∃ x, t 3 0 = some x := by
  rw [← tableKey_page hi] at hg
  obtain ⟨x, hx⟩ := h.parent (by decide : 3 < 4) hg
  rw [tableKey_low hi (by decide)] at hx
  exact ⟨x, hx⟩

theorem maxProcessPages_lt : maxProcessPages < ptrsPerTable := by decide

namespace Space

variable {mm : MmStruct} {r r' : Ram} {t : Radix.Tree Nat} {R R' : Nat → Prop} {b g x : Nat}

theorem frame_apart (h : Space mm r t R b) (hg : mm.Frame g) : ¬ IsTable t g :=
  fun ht => (h.tables.own g ht).2 (.inr hg)

/-- An address space in a memory where its tables are the same, and with others'
pages that are apart. -/
theorem congr (h : Space mm r t R b) (htaken : ∀ g, mm.Frame g ∨ IsTable t g → r'.Taken g)
    (hbyte : ∀ g, IsTable t g → r'.byte g = r.byte g)
    (hR : ∀ g, R' g → r'.Taken g ∧ ¬ mm.Frame g ∧ ¬ IsTable t g) : Space mm r' t R' b where
  tables := by
    refine h.tables.congr ⟨rfl, rfl, rfl⟩ (fun g hg => ⟨htaken g (.inr hg), hbyte g hg⟩) ?_
    rintro g hg (hg' | hg')
    · exact (hR g hg').2.2 hg
    · exact h.frame_apart hg' hg
  taken g hg := by
    rcases hg with hg | hg
    · exact (hR g hg).1
    · exact htaken g (.inl hg)
  apart g hg hg' := (hR g hg').2.1 hg
  once := h.once
  few := h.few
  address := h.address
  narrow := h.narrow
  mapped := h.mapped
  unmapped := h.unmapped

/-- A write outside of the tables. -/
theorem write (h : Space mm r t R b) (htaken : ∀ g, r.Taken g → r'.Taken g)
    (hbyte : ∀ g, IsTable t g → r'.byte g = r.byte g) : Space mm r' t R b := by
  refine h.congr (fun g hg => htaken g ?_) hbyte fun g hg => ⟨htaken g (h.taken g (.inl hg)), ?_, ?_⟩
  · rcases hg with hg | hg
    · exact h.taken g (.inr hg)
    · exact (h.tables.own g hg).1
  · exact fun hg' => h.apart g hg' hg
  · exact fun ht => (h.tables.own g ht).2 (.inl hg)

/-- No entry is stale any more. -/
theorem settle (h : Space mm r t R b) (hb : b ≤ mm.nUserPages) : Space mm r t R 0 :=
  { h with unmapped := fun key hkey _ => h.unmapped key hkey (Nat.le_trans hb hkey) }

/-- The memory of a process that has none. -/
theorem empty (hR : ∀ g, R g → r.Taken g) : Space emptyMm r (fun _ _ => none) R 0 := by
  have hframe : ∀ g, ¬ emptyMm.Frame g := fun g hg => by
    obtain ⟨i, hi, _⟩ := hg
    exact Nat.not_lt_zero i hi
  refine ⟨.empty rfl rfl, fun g hg => hR g (hg.resolve_right (hframe g)),
    fun g hg => absurd hg (hframe g), fun i hi => absurd hi (Nat.not_lt_zero i),
    Nat.zero_le _, fun i hi => absurd hi (Nat.not_lt_zero i), fun _ _ _ _ => rfl,
    fun i hi => absurd hi (Nat.not_lt_zero i), fun _ _ _ => rfl⟩

/-- The hardware finds the frames of the process. -/
theorem translate_eq (h : Space mm r t R 0) {va : Nat} (hg : translate r mm.pgd va = some g) :
    mm.Frame g := by
  rw [h.tables.translate_eq] at hg
  by_cases hkey : tableKey va 4 < mm.nUserPages
  · rw [h.mapped _ hkey] at hg
    exact ⟨_, hkey, Option.some.inj hg⟩
  · rw [h.unmapped _ (Nat.not_lt.mp hkey) (Nat.zero_le _)] at hg
    exact absurd hg nofun

end Space

/-! ## One more page -/

/-- What is in the user pages. -/
def Contents (mm : MmStruct) (r : Ram) (c : Nat → Nat → Byte) : Prop :=
  ∀ i < mm.nUserPages, ∀ j < pageSize, r.byte (mm.userPages i).physicalAddress j = c i j

/-- `allocate_user_page` of the next address, with the frame `x` and what is put into it. -/
structure Adds (mm : MmStruct) (r : Ram) (R : Nat → Prop) (b x : Nat) (content : Nat → Byte)
    (mm' : MmStruct) (r' : Ram) (t' : Radix.Tree Nat) : Prop where
  space : Space mm' r' t' R b
  nUserPages : mm'.nUserPages = mm.nUserPages + 1
  userPages : mm'.userPages = update mm.userPages mm.nUserPages ⟨x, mm.nUserPages * pageSize⟩
  fresh : ∀ g, R g ∨ mm.Frame g → g ≠ x
  content : r'.byte x = content
  keeps : Keeps (fun g => R g ∨ mm.Frame g) r r'
  table : ∃ g, t' 3 0 = some g

namespace Space

variable {mm mm' : MmStruct} {r r' : Ram} {t t' : Radix.Tree Nat} {R : Nat → Prop} {b x : Nat}

/-- The next page, mapped to the frame `x` that was free. -/
theorem adds {r₁ : Ram} (h : Space mm r t R b) (hfew : mm.nUserPages < maxProcessPages)
    (hx : r.Takes x r₁)
    (hmaps : Maps mm r₁ t (fun g => (R g ∨ mm.Frame g) ∨ g = x) (mm.nUserPages * pageSize) x
      mm' r' t') : Adds mm r R b x (fun _ => 0) mm' r' t' := by
  have hlt : mm.nUserPages < ptrsPerTable := Nat.lt_trans hfew maxProcessPages_lt
  obtain ⟨hn, hpages⟩ := hmaps.user
  have hpage : ∀ i, mm'.userPages i =
      if i = mm.nUserPages then ⟨x, mm.nUserPages * pageSize⟩ else mm.userPages i := fun i => by
    rw [hpages, update_apply]
  have hfree : ∀ g, R g ∨ mm.Frame g → g ≠ x := fun g hg he => hx.free (he ▸ h.taken g hg)
  have hframe : ∀ g, mm'.Frame g ↔ mm.Frame g ∨ g = x := by
    intro g
    constructor
    · rintro ⟨i, hi, rfl⟩
      rw [hpage]
      split
      next => exact .inr rfl
      next hne => exact .inl ⟨i, by omega, rfl⟩
    · rintro (⟨i, hi, rfl⟩ | rfl)
      · exact ⟨i, by omega, by rw [hpage, if_neg (by omega)]⟩
      · exact ⟨mm.nUserPages, by omega, by rw [hpage, if_pos rfl]⟩
  have htaken : ∀ g, r.Taken g ∨ g = x → r'.Taken g := fun g hg =>
    hmaps.keeps.taken g ((hx.taken g).mpr hg)
  have hvalue : ∀ key, t' 4 key = if key = mm.nUserPages then some x else t 4 key := fun key => by
    rw [hmaps.value, tableKey_page hlt]
  have hmapped : ∀ i < mm'.nUserPages, t' 4 i = some (mm'.userPages i).physicalAddress := by
    intro i hi
    rw [hvalue, hpage]
    split
    next => rfl
    next => exact h.mapped i (by omega)
  refine ⟨⟨?_, fun g hg => ?_, fun g hg hR => ?_, fun i hi j hj he => ?_, by omega, fun i hi => ?_,
    fun k hk key hkey => ?_, hmapped, fun key hkey hb => ?_⟩, hn, hpages, hfree, ?_,
    ⟨fun g hg => htaken g (.inl hg), fun g hg => ?_⟩, ?_⟩
  · refine hmaps.tables.congr ⟨rfl, rfl, rfl⟩ (fun g hg => ⟨(hmaps.tables.own g hg).1, rfl⟩) ?_
    rintro g hg (hR | hf)
    · exact (hmaps.tables.own g hg).2 (.inl (.inl hR))
    · refine (hmaps.tables.own g hg).2 ?_
      exact ((hframe g).mp hf).imp .inr id
  · refine htaken g ?_
    rcases hg with hR | hf
    · exact .inl (h.taken g (.inl hR))
    · exact ((hframe g).mp hf).imp (fun hf => h.taken g (.inr hf)) id
  · rcases (hframe g).mp hg with hf | he
    · exact h.apart g hf hR
    · exact hfree g (.inl hR) he
  · rw [hpage, hpage] at he
    split at he <;> split at he
    next hi' hj' => exact hi'.trans hj'.symm
    next _ hj' => exact absurd he.symm (hfree _ (.inr ⟨j, by omega, rfl⟩))
    next hi' _ => exact absurd he (hfree _ (.inr ⟨i, by omega, rfl⟩))
    next hi' hj' => exact h.once i (by omega) j (by omega) he
  · rw [hpage]
    split
    next he => rw [he]
    next => exact h.address i (by omega)
  · rw [hmaps.table k hk key (by rw [tableKey_low hlt hk]; exact hkey)]
    exact h.narrow k hk key hkey
  · rw [hvalue, if_neg (by omega)]
    exact h.unmapped key (by omega) hb
  · refine (hmaps.keeps.byte x (.inr rfl)).trans ?_
    rw [hx.byte, update_self]
  · refine (hmaps.keeps.byte g (.inl hg)).trans ?_
    rw [hx.byte, update_of_ne (hfree g hg)]
  · exact hmaps.tables.lastTable hlt ((hvalue mm.nUserPages).trans (if_pos rfl))

/-- `allocate_user_page` of the next address. -/
theorem mapPage (h : Space mm r t R b) (hfew : mm.nUserPages < maxProcessPages)
    (hx : r.Takes x r')
    (hok : (Demoos.mapPage mm r' (mm.nUserPages * pageSize) x).2.corrupted = false) :
    ∃ t', Adds mm r R b x (fun _ => 0) (Demoos.mapPage mm r' (mm.nUserPages * pageSize) x).1
      (Demoos.mapPage mm r' (mm.nUserPages * pageSize) x).2 t' := by
  obtain ⟨t', hmaps⟩ := (h.tables.takes hx).mapPage
    (fun g hg => (hx.taken g).mpr (hg.imp (h.taken g) id)) hx.isPage.isFrame hok
  exact ⟨t', h.adds hfew hx hmaps⟩

/-- In a space that has its tables, only the page itself is taken. -/
theorem spare (h : Space mm r t R b) (hfew : mm.nUserPages < maxProcessPages)
    (hx : r.Takes x r') (htable : ∃ g, t 3 0 = some g) {n : Nat} (hn : r.Spare n) :
    (Demoos.mapPage mm r' (mm.nUserPages * pageSize) x).2.Spare (n - 1) := by
  have hlt : mm.nUserPages < ptrsPerTable := Nat.lt_trans hfew maxProcessPages_lt
  obtain ⟨g, hg⟩ := htable
  rw [← tableKey_low hlt (by decide : 3 < 4)] at hg
  rw [(h.tables.takes hx).mapPage_eq hg]
  obtain ⟨l, hl, hlen, hfree⟩ := hn.takes hx
  exact ⟨l, hl, hlen, hfree⟩

end Space

namespace Adds

variable {mm mm' : MmStruct} {r r' : Ram} {t' : Radix.Tree Nat} {R : Nat → Prop} {b x : Nat}
  {content : Nat → Byte} {c : Nat → Nat → Byte}

theorem frame (h : Adds mm r R b x content mm' r' t') : mm'.Frame x :=
  ⟨mm.nUserPages, by rw [h.nUserPages]; exact Nat.lt_succ_self _, by rw [h.userPages, update_self]⟩

theorem unwritten (h : Adds mm r R b x content mm' r' t') : Unwritten R r r' :=
  fun g hg => h.keeps.byte g (.inl hg)

/-- The page may be written to. -/
theorem write (h : Adds mm r R b x content mm' r' t') (byte : Nat → Byte) :
    Adds mm r R b x byte mm' { r' with byte := update r'.byte x byte } t' := by
  have hbyte : ∀ g, g ≠ x → update r'.byte x byte g = r'.byte g := fun g hg => update_of_ne hg _ _
  refine ⟨h.space.write (fun _ hg => hg) fun g hg => hbyte g ?_, h.nUserPages, h.userPages, h.fresh,
    update_self .., ⟨h.keeps.taken, fun g hg => ?_⟩, h.table⟩
  · exact fun he => h.space.frame_apart h.frame (he ▸ hg)
  · exact (hbyte g (h.fresh g hg)).trans (h.keeps.byte g hg)

theorem memzero (h : Adds mm r R b x content mm' r' t') :
    Adds mm r R b x (fun _ => 0) mm' (r'.memzero x) t' := h.write _

theorem fill (h : Adds mm r R b x content mm' r' t') (n : Nat) (byte : Nat → Byte) :
    Adds mm r R b x (fun i => if i < n then byte i else content i) mm' (r'.fill x n byte) t' := by
  have hwrite := h.write fun i => if i < n then byte i else r'.byte x i
  rw [h.content] at hwrite
  rw [Ram.fill, h.content]
  exact hwrite

/-- The other pages keep what is in them. -/
theorem contents (h : Adds mm r R b x content mm' r' t') (hc : Contents mm r c)
    (hcontent : ∀ j < pageSize, content j = c mm.nUserPages j) : Contents mm' r' c := by
  intro i hi j hj
  rw [h.userPages, update_apply]
  rw [h.nUserPages] at hi
  split
  next he =>
    rw [h.content, hcontent j hj, he]
  next hne =>
    have hlt : i < mm.nUserPages := by omega
    rw [h.keeps.byte _ (.inr ⟨i, hlt, rfl⟩)]
    exact hc i hlt j hj

end Adds

/-! ## Fork -/

theorem ages_allocateUserPage (mm : MmStruct) (r : Ram) (va : Nat) :
    Ram.Ages r (allocateUserPage mm r va).2.2 := by
  by_cases hpage : r.getFreePage.1 = 0
  · rw [allocateUserPage_of_zero hpage]
    exact ⟨fun _ => rfl, id, .inl⟩
  · rw [allocateUserPage_of_ne hpage]
    exact r.ages_getFreePage.trans (ages_mapPage ..)

theorem ages_copyPages (src : MmStruct) (is : List Nat) (mm : MmStruct) (r : Ram) :
    Ram.Ages r (copyPages src is mm r).2.2 := by
  induction is generalizing mm r with
  | nil => exact .refl r
  | cons i is ih =>
      have hpage := ages_allocateUserPage mm r (src.userPages i).virtualAddress
      rw [copyPages]
      dsimp only
      split
      next => exact hpage
      next =>
        refine .trans ?_ (ih _ _)
        exact hpage.trans (.of_eq ⟨rfl, rfl⟩)

namespace Space

variable {mm : MmStruct} {r : Ram} {t : Radix.Tree Nat} {R : Nat → Prop}
  {c : Nat → Nat → Byte}

/-- The pages from `mm.nUserPages` on, of a process whose pages are in order. -/
theorem copyPages (src : MmStruct) {k : Nat} (h : Space mm r t R 0)
    (hk : mm.nUserPages + k ≤ maxProcessPages)
    (hsrc : ∀ i < mm.nUserPages + k, (src.userPages i).virtualAddress = i * pageSize ∧
      R (src.userPages i).physicalAddress ∧ r.byte (src.userPages i).physicalAddress = c i)
    (hc : Contents mm r c)
    (hok : (Demoos.copyPages src (List.range' mm.nUserPages k) mm r).2.2.corrupted = false) :
    ∃ t', Space (Demoos.copyPages src (List.range' mm.nUserPages k) mm r).2.1
        (Demoos.copyPages src (List.range' mm.nUserPages k) mm r).2.2 t' R 0 ∧
      Unwritten R r (Demoos.copyPages src (List.range' mm.nUserPages k) mm r).2.2 ∧
      Contents (Demoos.copyPages src (List.range' mm.nUserPages k) mm r).2.1
        (Demoos.copyPages src (List.range' mm.nUserPages k) mm r).2.2 c ∧
      ((Demoos.copyPages src (List.range' mm.nUserPages k) mm r).2.2.exhausted = false →
        (Demoos.copyPages src (List.range' mm.nUserPages k) mm r).2.1.nUserPages =
          mm.nUserPages + k) := by
  induction k generalizing mm r t with
  | zero => exact ⟨t, h, .refl R r, hc, fun _ => rfl⟩
  | succ k ih =>
      obtain ⟨hva, hR, hbyte⟩ := hsrc mm.nUserPages (by omega)
      rw [List.range'_succ, Demoos.copyPages, hva] at hok ⊢
      by_cases hpage : r.getFreePage.1 = 0
      · rw [allocateUserPage_of_zero hpage, if_pos rfl]
        exact ⟨t, h.write (fun _ hg => hg) fun _ _ => rfl, fun _ _ => rfl, hc,
          fun he => absurd he nofun⟩
      · rw [allocateUserPage_of_ne hpage] at hok ⊢
        have hne : r.getFreePage.1 + vaStart ≠ 0 := by omega
        rw [if_neg hne] at hok ⊢
        dsimp only at hok ⊢
        rw [Nat.add_sub_cancel] at hok ⊢
        have hmapped := (ages_copyPages ..).sane hok
        obtain ⟨t₁, hadds⟩ := h.mapPage (by omega) (Ram.takes_getFreePage hpage) hmapped
        have hzero := hadds.memzero
        rw [hzero.unwritten _ hR, hbyte] at hok ⊢
        have hcopied := hzero.fill pageSize (c mm.nUserPages)
        have hn := hcopied.nUserPages
        rw [← hn] at hok ⊢
        rw [Nat.add_succ, ← Nat.succ_add, Nat.succ_eq_add_one, ← hn] at hsrc hk ⊢
        have hsrc' := fun i hi => (hsrc i hi).imp_right fun hi =>
          hi.imp_right (hcopied.unwritten _ hi.1).trans
        obtain ⟨t', hspace, hrest, hcontents, hall⟩ := ih hcopied.space hk hsrc'
          (hcopied.contents hc fun j hj => if_pos hj) hok
        exact ⟨t', hspace, hcopied.unwritten.trans hrest, hcontents, hall⟩

end Space

/-! ## Code -/

/-- Byte `j` of page `i`, of an image that begins with `size` bytes. -/
def image (data : Nat → Byte) (size i j : Nat) : Byte :=
  if i * pageSize + j < size then data (i * pageSize + j) else 0

/-- As long as nobody writes to the pages of `R`, the source has these bytes. -/
def Faithful (R : Nat → Prop) (r : Ram) (source : Ram → Nat → Byte) (data : Nat → Byte)
    (size : Nat) : Prop := ∀ r', Unwritten R r r' → ∀ i < size, source r' i = data i

/-- `copy_code`, which began with `r`, before page `i`.  Either it has got all pages so far, or
there is none left. -/
structure Loading (R : Nat → Prop) (b : Nat) (source : Ram → Nat → Byte) (size : Nat) (r : Ram)
    (i : Nat) (s : MmStruct × Ram × Nat) (t : Radix.Tree Nat) : Prop where
  space : Space s.1 s.2.1 t R b
  table : 0 < b → ∃ g, t 3 0 = some g
  spare : s.2.1.Spare (b - s.1.nUserPages)
  progress : s.1.nUserPages = i ∨
    s.1.nUserPages ≤ i ∧ (∀ g, IsPage g → s.2.1.Taken g) ∧ s.2.1.exhausted = true
  copied : s.2.2 = min (i * pageSize) size
  unwritten : Unwritten R r s.2.1
  contents : ∀ data, Faithful R r source data size → Contents s.1 s.2.1 (image data size)

theorem ages_copyCodePage (source : Ram → Nat → Byte) (size : Nat) (s : MmStruct × Ram × Nat)
    (i : Nat) : Ram.Ages s.2.1 (copyCodePage source size s i).2.1 := by
  unfold copyCodePage
  dsimp only
  by_cases hpage : s.2.1.getFreePage.1 = 0
  · rw [allocateUserPage_of_zero hpage]
    split
    next => exact ⟨fun _ => rfl, fun hc => Bool.or_eq_true_iff.mpr (.inl hc), fun _ => .inr rfl⟩
    next => exact ⟨fun _ => rfl, id, .inl⟩
  · have hne : s.2.1.getFreePage.1 + vaStart ≠ 0 := by omega
    have hmap := s.2.1.ages_getFreePage.trans
      (ages_mapPage s.1 _ (i * pageSize) s.2.1.getFreePage.1)
    rw [allocateUserPage_of_ne hpage]
    split
    next =>
      dsimp only
      rw [Ram.relyOn_eq hne]
      exact hmap.trans (.of_eq ⟨rfl, rfl⟩)
    next => exact hmap

theorem ages_copyCode (source : Ram → Nat → Byte) (size : Nat) (mm : MmStruct) (r : Ram) :
    Ram.Ages r (copyCode source size mm r).2 := by
  have hpages : ∀ (is : List Nat) (s : MmStruct × Ram × Nat),
      Ram.Ages s.2.1 (is.foldl (copyCodePage source size) s).2.1 := by
    intro is
    induction is with
    | nil => exact fun s => .refl _
    | cons i is ih => exact fun s => (ages_copyCodePage ..).trans (ih _)
  exact hpages (List.range 16) (mm, r, 0)

/-- What has been copied before page `i`, and with it. -/
theorem copied_succ {size i copied : Nat} (h : copied = min (i * pageSize) size) :
    (copied < size → copied = i * pageSize ∧
      copied + (if pageSize < size - copied then pageSize else size - copied) =
        min ((i + 1) * pageSize) size) ∧
    (¬ copied < size → size ≤ i * pageSize ∧ copied = min ((i + 1) * pageSize) size) := by
  have hnext : (i + 1) * pageSize = i * pageSize + pageSize := Nat.succ_mul i pageSize
  rw [hnext]
  constructor
  · intro hlt
    refine ⟨by omega, ?_⟩
    split <;> omega
  · intro hle
    omega

namespace Loading

variable {R : Nat → Prop} {b i : Nat} {source : Ram → Nat → Byte} {size : Nat} {r : Ram}
  {s : MmStruct × Ram × Nat} {t : Radix.Tree Nat}

/-- Without a page, nothing happens. -/
theorem exhausted (h : Loading R b source size r i s t) (hpage : s.2.1.getFreePage.1 = 0)
    (hok : (copyCodePage source size s i).2.1.corrupted = false) :
    Loading R b source size r (i + 1) (copyCodePage source size s i) t := by
  have hall := (Ram.getFreePage_eq_zero hpage).2
  have hle : s.1.nUserPages ≤ i + 1 := by
    rcases h.progress with he | ⟨hle, _⟩ <;> omega
  unfold copyCodePage at hok ⊢
  rw [allocateUserPage_of_zero hpage] at hok ⊢
  dsimp only at hok ⊢
  split at hok
  next => exact absurd rfl (Ram.corrupted_relyOn hok).2
  next hsize =>
    rw [if_neg hsize]
    exact ⟨h.space.write (fun _ hg => hg) fun _ _ => rfl, h.table, h.spare,
      .inr ⟨hle, hall, rfl⟩, ((copied_succ h.copied).2 hsize).2, h.unwritten, h.contents⟩

/-- The next page. -/
theorem loaded (h : Loading R b source size r i s t) (hi : i < maxProcessPages)
    (hpage : s.2.1.getFreePage.1 ≠ 0)
    (hok : (copyCodePage source size s i).2.1.corrupted = false) :
    ∃ t', Loading R b source size r (i + 1) (copyCodePage source size s i) t' := by
  have hx := Ram.takes_getFreePage hpage
  have hn : s.1.nUserPages = i :=
    h.progress.resolve_right fun hall => hx.free (hall.2.1 _ hx.isPage)
  have hne : s.2.1.getFreePage.1 + vaStart ≠ 0 := by omega
  obtain ⟨mm, r₁, copied⟩ := s
  have hcopied := h.copied
  have hunwritten := h.unwritten
  have hcontents := h.contents
  dsimp only at *
  unfold copyCodePage at hok ⊢
  dsimp only at hok ⊢
  rw [allocateUserPage_of_ne hpage] at hok ⊢
  dsimp only at hok ⊢
  rw [Ram.relyOn_eq hne, Nat.add_sub_cancel] at hok ⊢
  subst hn
  have hmapped : (mapPage mm r₁.getFreePage.2 (mm.nUserPages * pageSize)
      r₁.getFreePage.1).2.corrupted = false := by
    split at hok <;> exact hok
  obtain ⟨t', hadds⟩ := h.space.mapPage hi hx hmapped
  have hspare : (mapPage mm r₁.getFreePage.2 (mm.nUserPages * pageSize)
      r₁.getFreePage.1).2.Spare (b - (mm.nUserPages + 1)) := by
    rcases Nat.eq_zero_or_pos b with hb | hb
    · rw [hb, Nat.zero_sub]
      exact Ram.spare_zero _
    · exact h.space.spare hi hx (h.table hb) h.spare
  have hrest := hunwritten.trans hadds.unwritten
  refine ⟨t', ?_⟩
  split
  next hlt =>
    have hfill := hadds.fill (if pageSize < size - copied then pageSize else size - copied)
      fun j => source (mapPage mm r₁.getFreePage.2 (mm.nUserPages * pageSize)
        r₁.getFreePage.1).2 (copied + j)
    obtain ⟨hat, hnext⟩ := (copied_succ hcopied).1 hlt
    refine ⟨hfill.space, fun _ => hadds.table, hadds.nUserPages ▸ hspare, .inl hadds.nUserPages,
      hnext, hunwritten.trans hfill.unwritten, fun data hdata =>
        hfill.contents (hcontents data hdata) fun j hj => ?_⟩
    rw [hat]
    unfold image
    by_cases hin : mm.nUserPages * pageSize + j < size
    · rw [if_pos hin, if_pos (by split <;> omega)]
      exact hdata _ hrest _ hin
    · rw [if_neg hin, if_neg (by split <;> omega)]
  next hle =>
    obtain ⟨hat, hnext⟩ := (copied_succ hcopied).2 hle
    refine ⟨hadds.space, fun _ => hadds.table, hadds.nUserPages ▸ hspare, .inl hadds.nUserPages,
      hnext, hrest, fun data hdata => hadds.contents (hcontents data hdata) fun j hj => ?_⟩
    refine (if_neg ?_).symm
    dsimp only
    omega

theorem copyCodePage (h : Loading R b source size r i s t) (hi : i < maxProcessPages)
    (hok : (Demoos.copyCodePage source size s i).2.1.corrupted = false) :
    ∃ t', Loading R b source size r (i + 1) (Demoos.copyCodePage source size s i) t' := by
  by_cases hpage : s.2.1.getFreePage.1 = 0
  · exact ⟨t, h.exhausted hpage hok⟩
  · exact h.loaded hi hpage hok

/-- `copy_code` up to page `n`. -/
theorem run (h : Loading R b source size r 0 s t) {n : Nat} (hn : n ≤ maxProcessPages)
    (hok : ((List.range n).foldl (Demoos.copyCodePage source size) s).2.1.corrupted = false) :
    ∃ t', Loading R b source size r n
      ((List.range n).foldl (Demoos.copyCodePage source size) s) t' := by
  induction n with
  | zero => exact ⟨t, h⟩
  | succ n ih =>
      rw [List.range_succ, List.foldl_append, List.foldl_cons, List.foldl_nil] at hok ⊢
      obtain ⟨t₁, hn₁⟩ := ih (by omega) ((ages_copyCodePage ..).sane hok)
      exact hn₁.copyCodePage hn hok

end Loading

/-- What `copy_code` has made of a space without pages. -/
structure Loaded (R : Nat → Prop) (source : Ram → Nat → Byte) (size : Nat) (r : Ram)
    (mm' : MmStruct) (r' : Ram) : Prop where
  space : ∃ t, Space mm' r' t R 0
  unwritten : Unwritten R r r'
  contents : ∀ data, Faithful R r source data size → Contents mm' r' (image data size)
  full : r'.exhausted = false → mm'.nUserPages = maxProcessPages

namespace Space

variable {mm : MmStruct} {r : Ram} {t : Radix.Tree Nat} {R : Nat → Prop} {b : Nat}

/-- `copy_code` begins without a page. -/
theorem loading (h : Space mm r t R b) (hn : mm.nUserPages = 0) (htable : 0 < b → ∃ g, t 3 0 = some g)
    (hspare : r.Spare b) (source : Ram → Nat → Byte) (size : Nat) :
    Loading R b source size r 0 (mm, r, 0) t := by
  refine ⟨h, htable, hspare.mono (Nat.sub_le _ _), .inl hn, ?_, .refl R r, fun _ _ i hi => ?_⟩
  · exact (Nat.zero_mul _).symm ▸ (Nat.zero_min size).symm
  · rw [hn] at hi
    exact absurd hi (Nat.not_lt_zero i)

/-- `copy_code` writes all stale entries again. -/
theorem copyCode (h : Space mm r t R b) (hb : b ≤ maxProcessPages) (hn : mm.nUserPages = 0)
    (htable : 0 < b → ∃ g, t 3 0 = some g) (hspare : r.Spare b) {source : Ram → Nat → Byte}
    {size : Nat} (hok : (Demoos.copyCode source size mm r).2.corrupted = false) :
    Loaded R source size r (Demoos.copyCode source size mm r).1
      (Demoos.copyCode source size mm r).2 := by
  have hstart := h.loading hn htable hspare source size
  obtain ⟨t', hend⟩ := hstart.run (Nat.le_refl maxProcessPages) hok
  refine ⟨⟨t', hend.space.settle ?_⟩, hend.unwritten, hend.contents, fun he => ?_⟩
  · rcases hend.progress with hall | ⟨_, hall, _⟩
    · rw [hall]
      exact hb
    · exact Nat.le_of_sub_eq_zero (hend.spare.eq_zero hall)
  · refine hend.progress.resolve_right fun hmissing => ?_
    have hex : (Demoos.copyCode source size mm r).2.exhausted = true := hmissing.2.2
    rw [he] at hex
    exact absurd hex nofun

end Space

/-! ## The old pages -/

/-- `syscall_exec` after it has freed the first `k` pages of `mm`. -/
structure Freed (mm : MmStruct) (r : Ram) (k : Nat) (mm' : MmStruct) (r' : Ram) : Prop where
  tables : mm'.pgd = mm.pgd ∧ mm'.nKernelPages = mm.nKernelPages ∧ mm'.kernelPages = mm.kernelPages
  nUserPages : mm'.nUserPages = mm.nUserPages - k
  userPages : ∀ i, k ≤ i → mm'.userPages i = mm.userPages i
  taken : ∀ g, r'.Taken g ↔ r.Taken g ∧ ∀ i < k, (mm.userPages i).physicalAddress ≠ g
  byte : ∀ g, (∀ i < k, (mm.userPages i).physicalAddress ≠ g) → r'.byte g = r.byte g
  flags : r'.exhausted = r.exhausted ∧ r'.corrupted = r.corrupted

theorem freeUserPage_eq (mm : MmStruct) (r : Ram) (i : Nat) :
    freeUserPage (mm, r) i =
      ({ mm with
          nUserPages := mm.nUserPages - 1
          userPages := update mm.userPages i ⟨0, 0⟩ },
        (r.freePage ((mm.userPages i).physicalAddress + vaStart)).2) := rfl

theorem Freed.step {mm mm' : MmStruct} {r r' r'' : Ram} {k : Nat} (h : Freed mm r k mm' r')
    (hfrees : r'.Frees (mm.userPages k).physicalAddress r'') :
    Freed mm r (k + 1) { mm' with
      nUserPages := mm'.nUserPages - 1
      userPages := update mm'.userPages k ⟨0, 0⟩ } r'' := by
  refine ⟨h.tables, ?_, fun i hi => ?_, fun g => ?_, fun g hg => ?_, ?_⟩
  · dsimp only
    rw [h.nUserPages]
    omega
  · dsimp only
    rw [update_of_ne (by omega)]
    exact h.userPages i (by omega)
  · rw [hfrees.taken, h.taken]
    constructor
    · rintro ⟨⟨ht, hold⟩, hne⟩
      refine ⟨ht, fun i hi => ?_⟩
      rcases Nat.lt_succ_iff_lt_or_eq.mp hi with hlt | rfl
      · exact hold i hlt
      · exact hne.symm
    · rintro ⟨ht, hall⟩
      exact ⟨⟨ht, fun i hi => hall i (by omega)⟩, (hall k (by omega)).symm⟩
  · rw [hfrees.byte, update_of_ne (hg k (by omega)).symm]
    exact h.byte g fun i hi => hg i (by omega)
  · exact ⟨hfrees.flags.1.trans h.flags.1, hfrees.flags.2.trans h.flags.2⟩

theorem freed {mm : MmStruct} {r : Ram} {n : Nat}
    (hpage : ∀ i < n, IsPage (mm.userPages i).physicalAddress) :
    ∃ mm' r', (List.range n).foldl freeUserPage (mm, r) = (mm', r') ∧ Freed mm r n mm' r' := by
  induction n with
  | zero =>
      exact ⟨mm, r, rfl, ⟨rfl, rfl, rfl⟩, rfl, fun _ _ => rfl, fun g => (and_iff_left nofun).symm,
        fun _ _ => rfl, rfl, rfl⟩
  | succ n ih =>
      obtain ⟨mm', r', he, hfreed⟩ := ih fun i hi => hpage i (by omega)
      have hlast : (List.range (n + 1)).foldl freeUserPage (mm, r) = freeUserPage (mm', r') n := by
        rw [List.range_succ, List.foldl_append, he]
        rfl
      rw [hlast, freeUserPage_eq, hfreed.userPages n (Nat.le_refl n)]
      exact ⟨_, _, rfl, hfreed.step (Ram.frees_freePage (hpage n (by omega)))⟩

namespace Space

variable {mm : MmStruct} {r : Ram} {t : Radix.Tree Nat} {R : Nat → Prop} {g : Nat}

/-- What is free when the user pages are. -/
theorem spare_freed (h : Space mm r t R 0) {mm' : MmStruct} {r' : Ram}
    (hfreed : Freed mm r mm.nUserPages mm' r') : r'.Spare mm.nUserPages := by
  refine ⟨(List.range mm.nUserPages).map fun i => (mm.userPages i).physicalAddress, ?_, ?_,
    fun g hg => ?_⟩
  · refine (List.nodup_map_iff_inj_on List.nodup_range).mpr fun i hi j hj he => ?_
    exact h.once i (List.mem_range.mp hi) j (List.mem_range.mp hj) he
  · rw [List.length_map, List.length_range]
  · obtain ⟨i, hi, rfl⟩ := List.mem_map.mp hg
    have hlt := List.mem_range.mp hi
    exact ⟨(h.taken _ (.inr ⟨i, hlt, rfl⟩)).isPage, fun ht => ((hfreed.taken _).mp ht).2 i hlt rfl⟩

/-- Without its user pages, a space has as many stale entries. -/
theorem freeUserPages (h : Space mm r t R 0) :
    ∃ mm' r', Demoos.freeUserPages mm r = (mm', r') ∧ Freed mm r mm.nUserPages mm' r' ∧
      Space mm' r' t R mm.nUserPages := by
  obtain ⟨mm', r', he, hfreed⟩ :=
    freed (n := mm.nUserPages) fun i hi => (h.taken _ (.inr ⟨i, hi, rfl⟩)).isPage
  refine ⟨mm', r', he, hfreed, ?_⟩
  have hn : mm'.nUserPages = 0 := hfreed.nUserPages.trans (Nat.sub_self _)
  have hframe : ∀ g, ¬ mm'.Frame g := fun g hg => by
    obtain ⟨i, hi, _⟩ := hg
    omega
  have hkeep : ∀ g, ¬ mm.Frame g → r.Taken g → r'.Taken g := fun g hg ht =>
    (hfreed.taken g).mpr ⟨ht, fun i hi he => hg ⟨i, hi, he⟩⟩
  refine ⟨?_, fun g hg => ?_, fun g hg => absurd hg (hframe g), ?_, ?_, ?_, h.narrow, ?_,
    fun key _ hkey => h.unmapped key hkey (Nat.zero_le _)⟩
  · refine h.tables.congr hfreed.tables (fun g hg => ⟨?_, ?_⟩) fun g hg hR => ?_
    · exact hkeep g (fun hf => h.frame_apart hf hg) (h.tables.own g hg).1
    · exact hfreed.byte g fun i hi he => h.frame_apart ⟨i, hi, he⟩ hg
    · rcases hR with hR | hf
      · exact (h.tables.own g hg).2 (.inl hR)
      · exact hframe g hf
  · have hR : R g := hg.resolve_right (hframe g)
    exact hkeep g (fun hf => h.apart g hf hR) (h.taken g (.inl hR))
  all_goals rw [hn]
  · exact fun i hi => absurd hi (Nat.not_lt_zero i)
  · exact Nat.zero_le _
  · exact fun i hi => absurd hi (Nat.not_lt_zero i)
  · exact fun i hi => absurd hi (Nat.not_lt_zero i)

/-- The two loops of `syscall_exec`. -/
theorem reload (h : Space mm r t R 0) {source : Ram → Nat → Byte} {size : Nat} {mm' : MmStruct}
    {r' : Ram} (hfree : Demoos.freeUserPages mm r = (mm', r'))
    (hok : (Demoos.copyCode source size mm' r').2.corrupted = false) :
    Unwritten R r r' ∧ Loaded R source size r' (Demoos.copyCode source size mm' r').1
      (Demoos.copyCode source size mm' r').2 := by
  obtain ⟨_, _, he, hfreed, hstale⟩ := h.freeUserPages
  obtain ⟨rfl, rfl⟩ := Prod.mk.inj (he.symm.trans hfree)
  have htable : 0 < mm.nUserPages → ∃ g, t 3 0 = some g := fun hpos =>
    h.tables.lastTable (by decide) (h.mapped 0 hpos)
  refine ⟨fun g hg => ?_, hstale.copyCode h.few (hfreed.nUserPages.trans (Nat.sub_self _)) htable
    (h.spare_freed hfreed) hok⟩
  exact hfreed.byte g fun i hi he => h.apart g ⟨i, hi, he⟩ hg

end Space

/-! ## Arguments -/

theorem flags_storeUser {pgd va : Nat} {bytes : List Byte} {r r' : Ram}
    (h : r.storeUser pgd va bytes = .ok r') :
    r'.exhausted = r.exhausted ∧ r'.corrupted = r.corrupted := by
  induction bytes generalizing r va with
  | nil =>
      rw [Ram.storeUser] at h
      obtain rfl := Except.ok.inj h
      exact ⟨rfl, rfl⟩
  | cons b bytes ih =>
      rw [Ram.storeUser] at h
      split at h
      next => exact absurd h nofun
      next =>
        have hrest := ih h
        exact hrest

theorem flags_pushArguments {pgd : Nat} {arguments : List (List Byte)} {i sp : Nat} {r : Ram}
    {trapFrame : Nat → Nat} {result : Nat × Ram × (Nat → Nat)}
    (h : pushArguments pgd arguments i sp r trapFrame = .ok result) :
    result.2.1.exhausted = r.exhausted ∧ result.2.1.corrupted = r.corrupted := by
  induction arguments generalizing r i sp trapFrame with
  | nil =>
      rw [pushArguments] at h
      obtain rfl := Except.ok.inj h
      exact ⟨rfl, rfl⟩
  | cons argument arguments ih =>
      rw [pushArguments] at h
      split at h
      next => exact absurd h nofun
      split at h
      next => exact absurd h nofun
      next =>
        obtain ⟨r₁, hstore, hpush⟩ := bind_ok h
        obtain ⟨he, hc⟩ := flags_storeUser hstore
        obtain ⟨he', hc'⟩ := ih hpush
        exact ⟨he'.trans he, hc'.trans hc⟩

namespace Space

variable {mm : MmStruct} {r : Ram} {t : Radix.Tree Nat} {R : Nat → Prop}

/-- A write to a user page. -/
theorem writeFrame (h : Space mm r t R 0) {g : Nat} (hg : mm.Frame g) (byte : Nat → Byte) :
    Space mm { r with byte := update r.byte g byte } t R 0 ∧
      Unwritten R r { r with byte := update r.byte g byte } := by
  refine ⟨h.write (fun _ hx => hx) fun x hx => ?_, fun x hx => ?_⟩
  · have hne : x ≠ g := fun he => h.frame_apart hg (he ▸ hx)
    exact update_of_ne hne _ _
  · have hne : x ≠ g := fun he => h.apart g hg (he ▸ hx)
    exact update_of_ne hne _ _

/-- A write to user addresses. -/
theorem storeUser (h : Space mm r t R 0) {va : Nat} {bytes : List Byte} {r' : Ram}
    (hstore : r.storeUser mm.pgd va bytes = .ok r') : Space mm r' t R 0 ∧ Unwritten R r r' := by
  induction bytes generalizing r va with
  | nil =>
      rw [Ram.storeUser] at hstore
      obtain rfl := Except.ok.inj hstore
      exact ⟨h, .refl R r⟩
  | cons b bytes ih =>
      rw [Ram.storeUser] at hstore
      split at hstore
      next => exact absurd hstore nofun
      next g hg =>
        obtain ⟨hwrite, hsame⟩ := h.writeFrame (h.translate_eq hg)
          (update (r.byte g) (va % pageSize) b)
        obtain ⟨hspace, hrest⟩ := ih hwrite hstore
        exact ⟨hspace, hsame.trans hrest⟩

theorem pushArguments (h : Space mm r t R 0) {arguments : List (List Byte)} {i sp : Nat}
    {trapFrame : Nat → Nat} {result : Nat × Ram × (Nat → Nat)}
    (hpush : Demoos.pushArguments mm.pgd arguments i sp r trapFrame = .ok result) :
    Space mm result.2.1 t R 0 ∧ Unwritten R r result.2.1 := by
  induction arguments generalizing r i sp trapFrame with
  | nil =>
      rw [Demoos.pushArguments] at hpush
      obtain rfl := Except.ok.inj hpush
      exact ⟨h, .refl R r⟩
  | cons argument arguments ih =>
      rw [Demoos.pushArguments] at hpush
      split at hpush
      next => exact absurd hpush nofun
      split at hpush
      next => exact absurd hpush nofun
      next =>
        obtain ⟨r₁, hstore, hpush⟩ := bind_ok hpush
        obtain ⟨hspace, hsame⟩ := h.storeUser hstore
        obtain ⟨hend, hrest⟩ := ih hspace hpush
        exact ⟨hend, hsame.trans hrest⟩

end Space

end Demoos
