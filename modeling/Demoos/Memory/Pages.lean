import Demoos.Lib.Bytes
import Demoos.Ipc.Mailbox

/-!
# Pages

The page allocator of `libs/mm.c`.  A page is known by its physical address, and what
is in it by its bytes.  The kernel sees the page `g` at `g + VA_START`, and no page is
at the address `0`, which the allocator returns when it fails.
-/

namespace Demoos

open Function (update update_self update_of_ne update_apply)

-- `PAGE_SIZE`, `LOW_MEMORY`, `VA_START` and `N_PAGES`.
def pageSize : Nat := 4096
def lowMemory : Nat := 0x400000
def vaStart : Nat := 0xffff000000000000
@[irreducible] def nPages : Nat := (0x3F000000 - lowMemory) / pageSize

/-- The address of the page that entry `i` of `memory_pages` is about. -/
def pageAddress (i : Nat) : Nat := lowMemory + i * pageSize

def IsPage (g : Nat) : Prop := ∃ i < nPages, g = pageAddress i

theorem pageAddress_inj {i j : Nat} (h : pageAddress i = pageAddress j) : i = j := by
  unfold pageAddress pageSize at h
  omega

theorem pageIndex (i : Nat) : (pageAddress i - lowMemory) / pageSize = i := by
  unfold pageAddress
  rw [Nat.add_sub_cancel_left]
  exact Nat.mul_div_cancel i (by decide)

theorem IsPage.ne_zero {g : Nat} (h : IsPage g) : g ≠ 0 := by
  obtain ⟨i, _, rfl⟩ := h
  unfold pageAddress lowMemory
  omega

theorem IsPage.aligned {g : Nat} (h : IsPage g) : g % pageSize = 0 := by
  obtain ⟨i, _, rfl⟩ := h
  unfold pageAddress lowMemory pageSize
  omega

theorem IsPage.lt {g : Nat} (h : IsPage g) : g < 0x3F000000 := by
  obtain ⟨i, hi, rfl⟩ := h
  unfold nPages lowMemory pageSize at hi
  unfold pageAddress lowMemory pageSize
  omega

/-! ## The allocator -/

/-- The physical memory with `memory_pages`.  `exhausted` records that a `get_free_page`
has failed, and `corrupted` that what it returned was taken for a page. -/
structure Ram where
  memoryPages : Nat → Bool
  byte : Nat → Nat → Byte
  exhausted : Bool
  corrupted : Bool

/-- The first `i` from which on, within `n` steps, the page is free. -/
def firstFree (memoryPages : Nat → Bool) : Nat → Nat → Option Nat
  | 0, _ => none
  | n + 1, i => if memoryPages i then firstFree memoryPages n (i + 1) else some i

namespace Ram

variable {r r' : Ram} {g x : Nat}

def memzero (r : Ram) (page : Nat) : Ram := { r with byte := update r.byte page fun _ => 0 }

@[irreducible] def getFreePage (r : Ram) : Nat × Ram :=
  match firstFree r.memoryPages nPages 0 with
  | some i =>
      let r := { r with memoryPages := update r.memoryPages i true }
      (pageAddress i, r.memzero (pageAddress i))
  | none => (0, { r with exhausted := true })

@[irreducible] def freePage (r : Ram) (pageKernelAddress : Nat) : Int × Ram :=
  if pageKernelAddress % pageSize ≠ 0 then (-1, r)
  else
    let r := r.memzero (pageKernelAddress - vaStart)
    let i := (pageKernelAddress - vaStart - lowMemory) / pageSize
    (0, { r with memoryPages := update r.memoryPages i false })

def allocateKernelPage (r : Ram) : Nat × Ram :=
  let page := r.getFreePage
  if page.1 = 0 then (0, page.2) else (page.1 + vaStart, page.2)

/-- The code goes on with what `get_free_page` returned. -/
def relyOn (r : Ram) (page : Nat) : Ram := { r with corrupted := r.corrupted || page == 0 }

/-- The page is marked in `memory_pages`. -/
def Taken (r : Ram) (g : Nat) : Prop := ∃ i < nPages, g = pageAddress i ∧ r.memoryPages i = true

theorem Taken.isPage (h : r.Taken g) : IsPage g := by
  obtain ⟨i, hi, hg, _⟩ := h
  exact ⟨i, hi, hg⟩

theorem taken_iff {i : Nat} (hi : i < nPages) :
    r.Taken (pageAddress i) ↔ r.memoryPages i = true := by
  constructor
  · rintro ⟨j, _, hj, h⟩
    rw [pageAddress_inj hj]
    exact h
  · exact fun h => ⟨i, hi, rfl, h⟩

/-- `g` is a free page, and `r'` is `r` with a zeroed `g` taken. -/
structure Takes (r : Ram) (g : Nat) (r' : Ram) : Prop where
  isPage : IsPage g
  free : ¬ r.Taken g
  taken : ∀ x, r'.Taken x ↔ r.Taken x ∨ x = g
  byte : r'.byte = update r.byte g fun _ => 0
  flags : r'.exhausted = r.exhausted ∧ r'.corrupted = r.corrupted

/-- `r'` is `r` with `g` zeroed and free. -/
structure Frees (r : Ram) (g : Nat) (r' : Ram) : Prop where
  taken : ∀ x, r'.Taken x ↔ r.Taken x ∧ x ≠ g
  byte : r'.byte = update r.byte g fun _ => 0
  flags : r'.exhausted = r.exhausted ∧ r'.corrupted = r.corrupted

theorem firstFree_some {memoryPages : Nat → Bool} {n i j : Nat}
    (h : firstFree memoryPages n i = some j) :
    i ≤ j ∧ j < i + n ∧ memoryPages j = false ∧ ∀ k, i ≤ k → k < j → memoryPages k = true := by
  induction n generalizing i with
  | zero => exact absurd h nofun
  | succ n ih =>
      rw [firstFree] at h
      split at h
      next hi =>
        obtain ⟨hle, hlt, hj, hbefore⟩ := ih h
        refine ⟨by omega, by omega, hj, fun k hk hkj => ?_⟩
        rcases Nat.lt_or_eq_of_le hk with hlt | rfl
        · exact hbefore k hlt hkj
        · exact hi
      next hi =>
        obtain rfl := Option.some.inj h
        exact ⟨Nat.le_refl i, by omega, by simpa using hi, fun k hk hki => absurd hki (by omega)⟩

theorem firstFree_none {memoryPages : Nat → Bool} {n i : Nat}
    (h : firstFree memoryPages n i = none) {j : Nat} (hi : i ≤ j) (hj : j < i + n) :
    memoryPages j = true := by
  induction n generalizing i with
  | zero => omega
  | succ n ih =>
      rw [firstFree] at h
      split at h
      next ht =>
        rcases Nat.lt_or_eq_of_le hi with hlt | rfl
        · exact ih h hlt (by omega)
        · exact ht
      next => exact absurd h nofun

theorem taken_update {i : Nat} (hi : i < nPages) (b : Bool) (byte : Nat → Nat → Byte) :
    ({ r with memoryPages := update r.memoryPages i b, byte := byte } : Ram).Taken x ↔
      if x = pageAddress i then b = true else r.Taken x := by
  unfold Taken
  dsimp only
  constructor
  · rintro ⟨j, hj, rfl, hb⟩
    rw [update_apply] at hb
    split at hb
    next he => rw [he, if_pos rfl]; exact hb
    next hne => rw [if_neg fun he => hne (pageAddress_inj he)]; exact ⟨j, hj, rfl, hb⟩
  · intro h
    split at h
    next he => exact ⟨i, hi, he, by rw [update_self]; exact h⟩
    next hne =>
      obtain ⟨j, hj, rfl, hb⟩ := h
      exact ⟨j, hj, rfl, by rw [update_of_ne fun he => hne (by rw [he])]; exact hb⟩

/-- The allocator marks and zeroes a free page, or there is none and nothing changes. -/
theorem getFreePage_cases (r : Ram) :
    (∃ i < nPages, r.memoryPages i = false ∧ r.getFreePage =
      (pageAddress i, { r.memzero (pageAddress i) with
        memoryPages := update r.memoryPages i true })) ∨
    ((∀ g, IsPage g → r.Taken g) ∧ r.getFreePage = (0, { r with exhausted := true })) := by
  unfold getFreePage
  cases hf : firstFree r.memoryPages nPages 0 with
  | none =>
      refine .inr ⟨fun g hg => ?_, rfl⟩
      obtain ⟨i, hi, rfl⟩ := hg
      exact (taken_iff hi).mpr (firstFree_none hf (Nat.zero_le i) (by omega))
  | some i =>
      obtain ⟨_, hlt, hfree, _⟩ := firstFree_some hf
      exact .inl ⟨i, by omega, hfree, rfl⟩

theorem takes_getFreePage (h : r.getFreePage.1 ≠ 0) : r.Takes r.getFreePage.1 r.getFreePage.2 := by
  rcases r.getFreePage_cases with ⟨i, hi, hfree, he⟩ | ⟨_, he⟩
  · rw [he]
    refine ⟨⟨i, hi, rfl⟩, fun ht => ?_, fun x => ?_, rfl, rfl, rfl⟩
    · rw [(taken_iff hi).mp ht] at hfree
      exact absurd hfree nofun
    · refine (taken_update hi true _).trans ?_
      split
      next he => exact ⟨fun _ => .inr he, fun _ => rfl⟩
      next hne => exact ⟨.inl, fun h => h.resolve_right hne⟩
  · rw [he] at h
    exact absurd rfl h

/-- The allocator fails when there is no free page, and then it changes nothing. -/
theorem getFreePage_eq_zero (h : r.getFreePage.1 = 0) :
    r.getFreePage.2 = { r with exhausted := true } ∧ ∀ g, IsPage g → r.Taken g := by
  rcases r.getFreePage_cases with ⟨i, hi, _, he⟩ | ⟨hall, he⟩
  · rw [he] at h
    exact absurd h (IsPage.ne_zero ⟨i, hi, rfl⟩)
  · exact ⟨congrArg Prod.snd he, hall⟩

theorem allocateKernelPage_snd : r.allocateKernelPage.2 = r.getFreePage.2 := by
  unfold allocateKernelPage
  dsimp only
  split <;> rfl

theorem takes_allocateKernelPage (h : r.allocateKernelPage.1 ≠ 0) :
    ∃ g, r.allocateKernelPage.1 = g + vaStart ∧ r.Takes g r.allocateKernelPage.2 := by
  have hpage : r.getFreePage.1 ≠ 0 := fun he => h (congrArg Prod.fst (if_pos he))
  refine ⟨_, congrArg Prod.fst (if_neg hpage), ?_⟩
  rw [allocateKernelPage_snd]
  exact takes_getFreePage hpage

theorem allocateKernelPage_eq_zero (h : r.allocateKernelPage.1 = 0) :
    r.allocateKernelPage.2 = { r with exhausted := true } ∧ ∀ g, IsPage g → r.Taken g := by
  have hpage : r.getFreePage.1 = 0 := by
    by_contra hne
    have hsum : r.getFreePage.1 + vaStart = 0 := (congrArg Prod.fst (if_neg hne)).symm.trans h
    omega
  rw [allocateKernelPage_snd]
  exact getFreePage_eq_zero hpage

theorem relyOn_eq (h : g ≠ 0) : r.relyOn g = r := by
  rw [relyOn, beq_eq_false_iff_ne.mpr h, Bool.or_false]

theorem corrupted_relyOn (h : (r.relyOn g).corrupted = false) : r.corrupted = false ∧ g ≠ 0 := by
  obtain ⟨hr, hg⟩ := Bool.or_eq_false_iff.mp h
  exact ⟨hr, beq_eq_false_iff_ne.mp hg⟩

theorem freePage_pageAddress (i : Nat) :
    r.freePage (pageAddress i + vaStart) = (0, { r.memzero (pageAddress i) with
      memoryPages := update r.memoryPages i false }) := by
  have haligned : (pageAddress i + vaStart) % pageSize = 0 := by
    unfold pageAddress lowMemory pageSize vaStart
    omega
  unfold freePage
  rw [if_neg (by rw [haligned]; exact fun hne => hne rfl)]
  simp only [Nat.add_sub_cancel, pageIndex]
  rfl

theorem frees_freePage (hg : IsPage g) : r.Frees g (r.freePage (g + vaStart)).2 := by
  obtain ⟨i, hi, rfl⟩ := hg
  rw [freePage_pageAddress]
  refine ⟨fun x => (taken_update hi false _).trans ?_, rfl, rfl, rfl⟩
  split
  next he => exact ⟨fun hf => absurd hf nofun, fun h => absurd he h.2⟩
  next hne => exact ⟨fun h => ⟨h, hne⟩, And.left⟩

/-! ## Flags -/

/-- On the way from `r` to `r'` the flags have only gone up, and `corrupted` only with
`exhausted`. -/
structure Ages (r r' : Ram) : Prop where
  exhausted : r.exhausted = true → r'.exhausted = true
  corrupted : r.corrupted = true → r'.corrupted = true
  cause : r'.corrupted = true → r.corrupted = true ∨ r'.exhausted = true

theorem Ages.of_eq (h : r'.exhausted = r.exhausted ∧ r'.corrupted = r.corrupted) : Ages r r' where
  exhausted := by rw [h.1]; exact id
  corrupted := by rw [h.2]; exact id
  cause := by rw [h.2]; exact .inl

theorem Ages.refl (r : Ram) : Ages r r := .of_eq ⟨rfl, rfl⟩

theorem Ages.trans {r'' : Ram} (h : Ages r r') (h' : Ages r' r'') : Ages r r'' where
  exhausted he := h'.exhausted (h.exhausted he)
  corrupted hc := h'.corrupted (h.corrupted hc)
  cause hc := by
    rcases h'.cause hc with hc | he
    · exact (h.cause hc).imp id h'.exhausted
    · exact .inr he

theorem Ages.sane (h : Ages r r') (hok : r'.corrupted = false) : r.corrupted = false := by
  refine Bool.eq_false_iff.mpr fun hc => ?_
  rw [h.corrupted hc] at hok
  exact absurd hok nofun

/-- If no page was missing, then nobody has relied on a page that was. -/
theorem Ages.sound (h : Ages r r') (hr : r.corrupted = false) (hok : r'.exhausted = false) :
    r'.corrupted = false := by
  refine Bool.eq_false_iff.mpr fun hc => ?_
  rcases h.cause hc with hc | he
  · rw [hr] at hc
    exact absurd hc nofun
  · rw [hok] at he
    exact absurd he nofun

theorem ages_getFreePage (r : Ram) : Ages r r.getFreePage.2 := by
  by_cases h : r.getFreePage.1 = 0
  · rw [(getFreePage_eq_zero h).1]
    exact ⟨fun _ => rfl, id, .inl⟩
  · exact .of_eq (takes_getFreePage h).flags

theorem ages_relyOn (r : Ram) : Ages r (r.getFreePage.2.relyOn r.getFreePage.1) := by
  by_cases h : r.getFreePage.1 = 0
  · rw [(getFreePage_eq_zero h).1, h]
    exact ⟨fun _ => rfl, fun hc => Bool.or_eq_true_iff.mpr (.inl hc), fun _ => .inr rfl⟩
  · rw [relyOn_eq h]
    exact ages_getFreePage r

theorem ages_allocateKernelPage (r : Ram) : Ages r r.allocateKernelPage.2 := by
  rw [allocateKernelPage_snd]
  exact ages_getFreePage r

theorem flags_freePage (r : Ram) (address : Nat) :
    (r.freePage address).2.exhausted = r.exhausted ∧
      (r.freePage address).2.corrupted = r.corrupted := by
  unfold freePage
  split <;> exact ⟨rfl, rfl⟩

/-! ## Free pages -/

/-- At least `n` pages are free. -/
def Spare (r : Ram) (n : Nat) : Prop :=
  ∃ l : List Nat, l.Nodup ∧ n ≤ l.length ∧ ∀ g ∈ l, IsPage g ∧ ¬ r.Taken g

theorem spare_zero (r : Ram) : r.Spare 0 := ⟨[], .nil, Nat.le_refl 0, nofun⟩

/-- Pages in a row. -/
theorem spare_range {k n : Nat} (hk : k + n ≤ nPages)
    (hfree : ∀ i < n, r.memoryPages (k + i) = false) : r.Spare n := by
  refine ⟨(List.range n).map fun i => pageAddress (k + i), ?_, ?_, fun g hg => ?_⟩
  · exact List.nodup_range.map fun i j h => Nat.add_left_cancel (pageAddress_inj h)
  · rw [List.length_map, List.length_range]
  · obtain ⟨i, hi, rfl⟩ := List.mem_map.mp hg
    have hlt := List.mem_range.mp hi
    refine ⟨⟨k + i, by omega, rfl⟩, fun htaken => ?_⟩
    have htrue := (taken_iff (by omega)).mp htaken
    rw [hfree i hlt] at htrue
    cases htrue

theorem Spare.mono {n m : Nat} (h : r.Spare n) (hm : m ≤ n) : r.Spare m := by
  obtain ⟨l, hl, hn, hfree⟩ := h
  exact ⟨l, hl, Nat.le_trans hm hn, hfree⟩

theorem Spare.eq_zero {n : Nat} (h : r.Spare n) (hall : ∀ g, IsPage g → r.Taken g) : n = 0 := by
  obtain ⟨l, _, hn, hfree⟩ := h
  cases l with
  | nil => exact Nat.le_zero.mp hn
  | cons g l =>
      obtain ⟨hg, hnot⟩ := hfree g List.mem_cons_self
      exact absurd (hall g hg) hnot

theorem Spare.takes {n : Nat} (h : r.Spare n) (hx : r.Takes x r') : r'.Spare (n - 1) := by
  obtain ⟨l, hl, hn, hfree⟩ := h
  refine ⟨l.erase x, hl.erase x, ?_, fun g hg => ?_⟩
  · rw [List.length_erase]
    split <;> omega
  · obtain ⟨hne, hg⟩ := hl.mem_erase_iff.mp hg
    refine ⟨(hfree g hg).1, fun ht => ?_⟩
    rcases (hx.taken g).mp ht with ht | he
    · exact (hfree g hg).2 ht
    · exact hne he

theorem Spare.restore {n : Nat} (h : r'.Spare n) (hx : r.Takes x r') : r.Spare (n + 1) := by
  obtain ⟨l, hl, hn, hfree⟩ := h
  have hnot : x ∉ l := fun hmem => (hfree x hmem).2 ((hx.taken x).mpr (.inr rfl))
  refine ⟨x :: l, List.nodup_cons.mpr ⟨hnot, hl⟩, Nat.succ_le_succ hn, fun g hg => ?_⟩
  rcases List.mem_cons.mp hg with rfl | hg
  · exact ⟨hx.isPage, hx.free⟩
  · exact ⟨(hfree g hg).1, fun ht => (hfree g hg).2 ((hx.taken g).mpr (.inl ht))⟩

/-- One page fewer is one page taken. -/
theorem Takes.spare_iff {n : Nat} (hx : r.Takes x r') : r'.Spare n ↔ r.Spare (n + 1) :=
  ⟨fun h => h.restore hx, fun h => h.takes hx⟩

end Ram

end Demoos
