import Demoos.Lib.Transition
import Demoos.Memory.Pages

/-!
# The page pool

Runs of the page allocator alone, whose users only free what they have.  The pages that
are marked in `memory_pages` are those that somebody has, and everybody gets a zeroed
page of his own, until there is none left.
-/

namespace Demoos

open Function (update update_self update_of_ne)

-- `HIGH_MEMORY`
def highMemory : Nat := 0x3F000000

/-! ## Arithmetic of the machine -/

/-- `LOW_MEMORY + (i * PAGE_SIZE)`, an `int` that becomes an `unsigned long`. -/
def wordAddress (i : BitVec 32) : BitVec 64 :=
  (BitVec.ofNat 32 lowMemory + i * BitVec.ofNat 32 pageSize).signExtend 64

/-- The index that `free_page` computes. -/
def wordIndex (pageKernelAddress : BitVec 64) : BitVec 64 :=
  (pageKernelAddress - BitVec.ofNat 64 vaStart - BitVec.ofNat 64 lowMemory) /
    BitVec.ofNat 64 pageSize

/-- Nothing overflows on the way from the index `i` to its page and back. -/
structure Exact (i : Nat) : Prop where
  product : i * pageSize < 2 ^ 31
  address : pageAddress i < 2 ^ 31
  kernelAddress : pageAddress i + vaStart < 2 ^ 64
  wordAddress : wordAddress (BitVec.ofNat 32 i) = BitVec.ofNat 64 (pageAddress i)
  wordIndex : wordIndex (BitVec.ofNat 64 (pageAddress i + vaStart)) = BitVec.ofNat 64 i
  index : (pageAddress i - lowMemory) / pageSize = i

theorem pageAddress_lt {i : Nat} (hi : i < nPages) : pageAddress i < highMemory :=
  IsPage.lt ⟨i, hi, rfl⟩

theorem wordAddress_ofNat {i : Nat} (hi : i < nPages) :
    wordAddress (BitVec.ofNat 32 i) = BitVec.ofNat 64 (pageAddress i) := by
  have hlt : pageAddress i < 2 ^ 31 := Nat.lt_trans (pageAddress_lt hi) (by decide)
  have hsum : BitVec.ofNat 32 lowMemory + BitVec.ofNat 32 i * BitVec.ofNat 32 pageSize =
      BitVec.ofNat 32 (pageAddress i) := by
    rw [← BitVec.ofNat_mul, ← BitVec.ofNat_add]
    rfl
  have hpositive : (BitVec.ofNat 32 (pageAddress i)).msb = false := by
    rw [BitVec.msb_eq_false_iff_two_mul_lt, BitVec.toNat_ofNat]
    omega
  rw [wordAddress, hsum, BitVec.signExtend_eq_setWidth_of_msb_false hpositive,
    BitVec.setWidth_ofNat_of_le_of_lt (by decide) (by omega)]

theorem wordIndex_ofNat {i : Nat} (hi : i < nPages) :
    wordIndex (BitVec.ofNat 64 (pageAddress i + vaStart)) = BitVec.ofNat 64 i := by
  have hlt : i * pageSize < 2 ^ 64 := by
    have := pageAddress_lt hi
    unfold pageAddress highMemory at this
    omega
  have hoffset : BitVec.ofNat 64 (pageAddress i + vaStart) - BitVec.ofNat 64 vaStart -
      BitVec.ofNat 64 lowMemory = BitVec.ofNat 64 (i * pageSize) := by
    rw [BitVec.ofNat_add, BitVec.add_sub_cancel, pageAddress, BitVec.ofNat_add, BitVec.add_comm,
      BitVec.add_sub_cancel]
  rw [wordIndex, hoffset]
  refine BitVec.eq_of_toNat_eq ?_
  rw [BitVec.toNat_udiv, BitVec.toNat_ofNat, BitVec.toNat_ofNat, BitVec.toNat_ofNat,
    Nat.mod_eq_of_lt hlt, Nat.mod_eq_of_lt (by decide : pageSize < 2 ^ 64),
    Nat.mul_div_cancel i (by decide : 0 < pageSize), Nat.mod_eq_of_lt]
  exact Nat.lt_of_le_of_lt (Nat.le_mul_of_pos_right i (by decide)) hlt

theorem Exact.of_lt {i : Nat} (hi : i < nPages) : Exact i := by
  have hlt := pageAddress_lt hi
  refine ⟨?_, Nat.lt_trans hlt (by decide), ?_, wordAddress_ofNat hi, wordIndex_ofNat hi, pageIndex i⟩
  · unfold pageAddress highMemory at hlt
    omega
  · unfold highMemory at hlt
    unfold vaStart
    omega

/-! ## Runs -/

/-- A call of the allocator, or a write of whoever has pages. -/
inductive PoolCall where
  | getFreePage
  | allocateKernelPage
  | freePage (pageKernelAddress : Nat)
  | write (byte : Nat → Nat → Byte)

/-- The memory, and the pages that have been allocated and not freed since. -/
structure Pool where
  ram : Ram
  live : List Nat

namespace Pool

variable {s s' : Pool} {g x : Nat}

/-- The call, if it does not free what nobody has. -/
def next (s : Pool) : PoolCall → Option Pool
  | .getFreePage =>
      let page := s.ram.getFreePage
      some ⟨page.2, if page.1 = 0 then s.live else page.1 :: s.live⟩
  | .allocateKernelPage =>
      let page := s.ram.allocateKernelPage
      some ⟨page.2, if page.1 = 0 then s.live else (page.1 - vaStart) :: s.live⟩
  | .freePage address =>
      if vaStart ≤ address ∧ address - vaStart ∈ s.live then
        some ⟨(s.ram.freePage address).2, s.live.erase (address - vaStart)⟩
      else none
  | .write byte => some ⟨{ s.ram with byte := byte }, s.live⟩

/-- All pages are free, with anything in them. -/
def boot (byte : Nat → Nat → Byte) : Pool := ⟨⟨fun _ => false, byte, false, false⟩, []⟩

def Reachable (s : Pool) : Prop := ∃ byte cs, Transition.exec next cs (boot byte) = some s

/-- The marked pages are the allocated ones, each with one owner. -/
structure Accounted (s : Pool) : Prop where
  once : s.live.Nodup
  taken : ∀ g, g ∈ s.live ↔ s.ram.Taken g

theorem accounted_boot (byte : Nat → Nat → Byte) : (boot byte).Accounted := by
  refine ⟨.nil, fun g => ⟨fun hg => absurd hg List.not_mem_nil, fun hg => ?_⟩⟩
  obtain ⟨_, _, _, hfalse⟩ := hg
  exact absurd hfalse nofun

theorem Accounted.takes {r : Ram} (h : s.Accounted) (hg : s.ram.Takes g r) :
    (Pool.mk r (g :: s.live)).Accounted where
  once := List.nodup_cons.mpr ⟨fun hmem => hg.free ((h.taken g).mp hmem), h.once⟩
  taken x := by
    rw [hg.taken, List.mem_cons, h.taken]
    exact or_comm

theorem Accounted.frees {r : Ram} (h : s.Accounted) (hg : s.ram.Frees g r) :
    (Pool.mk r (s.live.erase g)).Accounted where
  once := h.once.erase g
  taken x := by
    rw [hg.taken, h.once.mem_erase_iff, h.taken]
    exact and_comm

theorem Accounted.next (h : s.Accounted) {c : PoolCall} (hnext : s.next c = some s') :
    s'.Accounted := by
  cases c with
  | getFreePage =>
      obtain rfl := Option.some.inj hnext
      by_cases hpage : s.ram.getFreePage.1 = 0
      · rw [(Ram.getFreePage_eq_zero hpage).1, if_pos hpage]
        exact ⟨h.once, h.taken⟩
      · rw [if_neg hpage]
        exact h.takes (Ram.takes_getFreePage hpage)
  | allocateKernelPage =>
      obtain rfl := Option.some.inj hnext
      by_cases hpage : s.ram.allocateKernelPage.1 = 0
      · rw [(Ram.allocateKernelPage_eq_zero hpage).1, if_pos hpage]
        exact ⟨h.once, h.taken⟩
      · obtain ⟨g, hg, htakes⟩ := Ram.takes_allocateKernelPage hpage
        rw [if_neg hpage, hg, Nat.add_sub_cancel]
        exact h.takes htakes
  | freePage address =>
      unfold Pool.next at hnext
      dsimp only at hnext
      split at hnext
      next hlive =>
        obtain ⟨hle, hmem⟩ := hlive
        obtain ⟨g, rfl⟩ := Nat.exists_eq_add_of_le' hle
        rw [Nat.add_sub_cancel] at hmem hnext
        obtain rfl := Option.some.inj hnext
        exact h.frees (Ram.frees_freePage ((h.taken g).mp hmem).isPage)
      next => exact absurd hnext nofun
  | write byte =>
      obtain rfl := Option.some.inj hnext
      exact ⟨h.once, h.taken⟩

theorem Reachable.accounted (h : s.Reachable) : s.Accounted := by
  obtain ⟨byte, cs, hrun⟩ := h
  exact Transition.exec_invariant (P := fun _ s => s.Accounted)
    (fun _ _ _ _ hs hnext => hs.next hnext) (accounted_boot byte) hrun

/-! ## The contract -/

/-- What a call of `get_free_page` or `free_page` does next. -/
structure Contract (s : Pool) : Prop where
  once : s.live.Nodup
  marked : ∀ i < nPages, s.ram.memoryPages i = true ↔ pageAddress i ∈ s.live
  allocates : s.ram.getFreePage.1 ≠ 0 →
    s.ram.getFreePage.1 % pageSize = 0 ∧ lowMemory ≤ s.ram.getFreePage.1 ∧
      s.ram.getFreePage.1 < highMemory ∧ s.ram.getFreePage.1 ∉ s.live
  marks : s.ram.getFreePage.1 ≠ 0 →
    s.ram.getFreePage.2.memoryPages =
      update s.ram.memoryPages ((s.ram.getFreePage.1 - lowMemory) / pageSize) true ∧
    s.ram.getFreePage.2.byte = update s.ram.byte s.ram.getFreePage.1 fun _ => 0
  allocateKernelPage : s.ram.allocateKernelPage.2 = s.ram.getFreePage.2 ∧
    s.ram.allocateKernelPage.1 =
      if s.ram.getFreePage.1 = 0 then 0 else s.ram.getFreePage.1 + vaStart
  fails : s.ram.getFreePage.1 = 0 → (∀ i < nPages, pageAddress i ∈ s.live) ∧
    s.ram.getFreePage.2.memoryPages = s.ram.memoryPages ∧ s.ram.getFreePage.2.byte = s.ram.byte
  frees : ∀ i < nPages, pageAddress i ∈ s.live →
    (s.ram.freePage (pageAddress i + vaStart)).1 = 0 ∧
      (s.ram.freePage (pageAddress i + vaStart)).2.memoryPages =
        update s.ram.memoryPages i false

theorem Accounted.contract (h : s.Accounted) : s.Contract where
  once := h.once
  marked i hi := by rw [h.taken, Ram.taken_iff hi]
  allocates hpage := by
    have htakes := Ram.takes_getFreePage hpage
    obtain ⟨i, _, he⟩ := htakes.isPage
    refine ⟨htakes.isPage.aligned, ?_, htakes.isPage.lt, fun hmem => ?_⟩
    · rw [he]
      exact Nat.le_add_right _ _
    · exact htakes.free ((h.taken _).mp hmem)
  marks hpage := by
    rcases s.ram.getFreePage_cases with ⟨i, _, _, he⟩ | ⟨_, he⟩
    · rw [he, pageIndex]
      exact ⟨rfl, rfl⟩
    · rw [he] at hpage
      exact absurd rfl hpage
  allocateKernelPage := by
    refine ⟨Ram.allocateKernelPage_snd, ?_⟩
    unfold Ram.allocateKernelPage
    dsimp only
    split <;> rfl
  fails hpage := by
    obtain ⟨hram, hall⟩ := Ram.getFreePage_eq_zero hpage
    rw [hram]
    exact ⟨fun i hi => (h.taken _).mpr (hall _ ⟨i, hi, rfl⟩), rfl, rfl⟩
  frees i _ _ := by
    rw [Ram.freePage_pageAddress]
    exact ⟨rfl, rfl⟩

/-- The allocator keeps its contract in every run, and its arithmetic is that of the
machine. -/
theorem contract_of_reachable (h : s.Reachable) : s.Contract ∧ ∀ i < nPages, Exact i :=
  ⟨h.accounted.contract, fun _ hi => .of_lt hi⟩

/-- A page is written to, and goes from one owner to the next. -/
def handOver : List PoolCall :=
  [.getFreePage, .write fun _ _ => 7, .allocateKernelPage, .freePage (lowMemory + vaStart),
    .getFreePage]

theorem contract_handOver : ∃ s, Transition.exec next handOver (boot fun _ _ => 5) = some s ∧
    s.live = [lowMemory, lowMemory + pageSize] ∧ s.Contract ∧ ∀ i < nPages, Exact i := by
  have hrun : (Transition.exec next handOver (boot fun _ _ => 5)).map live =
      some [lowMemory, lowMemory + pageSize] := by decide +kernel
  obtain ⟨s, hs, hlive⟩ := Option.map_eq_some_iff.mp hrun
  exact ⟨s, hs, hlive, contract_of_reachable ⟨_, _, hs⟩⟩

end Pool

end Demoos
