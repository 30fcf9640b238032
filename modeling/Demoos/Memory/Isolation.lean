import Mathlib.Data.List.Perm.Subperm
import Demoos.Memory.Calls

/-!
# Memory isolation

In a run in which `get_free_page` does not fail, the hardware maps the user pages of a process
to its frames, and nothing else.  So it reaches no page of another process, and no
page table.
-/

namespace Demoos

/-- The tables are at most four, one at each level. -/
theorem Space.nKernelPages_le {mm : MmStruct} {r : Ram} {t : Radix.Tree Nat} {R : Nat → Prop}
    {b : Nat} (h : Space mm r t R b) : mm.nKernelPages ≤ 4 := by
  have hnodup : ((List.range mm.nKernelPages).map mm.kernelPages).Nodup := by
    refine (List.nodup_map_iff_inj_on List.nodup_range).mpr fun i hi j hj he => ?_
    exact h.tables.tracked.once i (List.mem_range.mp hi) j (List.mem_range.mp hj) he
  have hsub : (List.range mm.nKernelPages).map mm.kernelPages ⊆
      (List.range 4).filterMap fun k => t k 0 := by
    intro g hg
    obtain ⟨i, hi, rfl⟩ := List.mem_map.mp hg
    obtain ⟨k, hk, key, he⟩ := h.tables.tracked.sound i (List.mem_range.mp hi)
    have hkey : key = 0 := Decidable.by_contra fun hne => by
      rw [h.narrow k hk key hne] at he
      exact absurd he nofun
    exact List.mem_filterMap.mpr ⟨k, List.mem_range.mpr hk, hkey ▸ he⟩
  have hle := (hnodup.subperm hsub).length_le
  rw [List.length_map, List.length_range] at hle
  exact Nat.le_trans hle (List.length_filterMap_le ..)

/-- The walk finds the frame of the page that an address is in. -/
theorem Space.translate_iff {mm : MmStruct} {r : Ram} {t : Radix.Tree Nat} {R : Nat → Prop}
    (h : Space mm r t R 0) {va g : Nat} (hva : va < 2 ^ 48) :
    translate r mm.pgd va = some g ↔
      ∃ i < mm.nUserPages, mm.userPages i = ⟨g, va / pageSize * pageSize⟩ := by
  have hkey : tableKey va 4 = va / pageSize := by
    unfold tableKey pageSize
    omega
  rw [h.tables.translate_eq, hkey]
  constructor
  · intro hg
    have hlt : va / pageSize < mm.nUserPages := by
      refine Nat.lt_of_not_le fun hle => ?_
      rw [h.unmapped _ hle (Nat.zero_le _)] at hg
      exact absurd hg nofun
    have hframe := Option.some.inj ((h.mapped _ hlt).symm.trans hg)
    refine ⟨_, hlt, ?_⟩
    rw [← hframe, ← h.address _ hlt]
  · rintro ⟨i, hi, he⟩
    have haddress := h.address i hi
    rw [he] at haddress
    have hindex : va / pageSize = i := Nat.eq_of_mul_eq_mul_right (by decide) haddress
    rw [hindex, h.mapped i hi, he]

namespace Machine

variable {m m' : Machine}

structure Isolated (m : Machine) : Prop where
  marked : ∀ u g, m.Uses u g → m.ram.Taken g
  distinct : ∀ u v g, m.Uses u g → m.Uses v g → u = v
  mapped : ∀ p < m.nProcesses, ∀ va < 2 ^ 48, ∀ g,
    translate m.ram (m.mm p).pgd va = some g ↔
      ∃ i < (m.mm p).nUserPages, (m.mm p).userPages i = ⟨g, va / pageSize * pageSize⟩
  apart : ∀ p < m.nProcesses, ∀ va < 2 ^ 48, ∀ u g,
    translate m.ram (m.mm p).pgd va = some g → m.Uses u g → ∃ i, u = .user p i
  nUserPages : ∀ p < m.nProcesses, (m.mm p).nUserPages ≤ maxProcessPages
  nKernelPages : ∀ p < m.nProcesses, (m.mm p).nKernelPages ≤ maxProcessPages

theorem Owned.isolated (h : m.Owned) : m.Isolated := by
  have hmapped : ∀ p < m.nProcesses, ∀ va < 2 ^ 48, ∀ g,
      translate m.ram (m.mm p).pgd va = some g ↔
        ∃ i < (m.mm p).nUserPages, (m.mm p).userPages i = ⟨g, va / pageSize * pageSize⟩ :=
    fun p hp va hva g => by
      obtain ⟨t, ht⟩ := h.space p hp
      exact ht.translate_iff hva
  refine ⟨h.taken, h.distinct, hmapped, fun p hp va hva u g hg hu => ?_, fun p hp => ?_,
    fun p hp => ?_⟩
  · obtain ⟨i, hi, he⟩ := (hmapped p hp va hva g).mp hg
    exact ⟨i, h.distinct u (.user p i) g hu ⟨hp, hi, by rw [he]⟩⟩
  · obtain ⟨t, ht⟩ := h.space p hp
    exact ht.few
  · obtain ⟨t, ht⟩ := h.space p hp
    exact Nat.le_trans ht.nKernelPages_le (by decide)

/-! ## Runs -/

/-- A machine in order, with no page missing so far. -/
structure Sound (m : Machine) : Prop where
  owned : m.Owned
  exhausted : m.ram.exhausted = false
  corrupted : m.ram.corrupted = false

theorem owned_boot : boot.Owned := by
  have hnone : ∀ u g, ¬ boot.Uses u g := by
    intro u g hu
    cases u with
    | pcb p =>
        obtain ⟨hi, hp, _⟩ := hu
        exact hi (Nat.lt_one_iff.mp hp)
    | table p i => exact absurd hu.2.1 (Nat.not_lt_zero i)
    | user p i => exact absurd hu.2.1 (Nat.not_lt_zero i)
    | resource p fd => exact hu.2.2.1 rfl
    | object p fd =>
        obtain ⟨_, hd⟩ := hu.2.2.1
        exact absurd hd nofun
  exact ⟨fun u _ g hu => absurd hu (hnone u g), fun u g hu => absurd hu (hnone u g),
    fun _ _ => ⟨_, Space.empty fun _ => False.elim⟩, fun _ _ _ => rfl, fun _ _ _ _ => .unused rfl rfl⟩

theorem sound_boot : boot.Sound := ⟨owned_boot, rfl, rfl⟩

theorem Sound.next (h : m.Sound) {c : Pid × Call} (hnext : m.next c = some m') : m'.Sound := by
  unfold Machine.next at hnext
  split at hnext
  next hen =>
    split at hnext
    next => exact absurd hnext nofun
    next result m₁ hcall =>
      split at hnext
      next => exact absurd hnext nofun
      next he =>
        obtain rfl := Option.some.inj hnext
        have hexhausted : m₁.ram.exhausted = false := Bool.eq_false_iff.mpr he
        have hcorrupted := (call_ages hcall).sound h.corrupted hexhausted
        exact ⟨h.owned.call hen hcall hcorrupted, hexhausted, hcorrupted⟩
  next => exact absurd hnext nofun

theorem Reachable.sound (h : m.Reachable) : m.Sound := by
  obtain ⟨cs, hrun⟩ := h
  exact Transition.exec_invariant (P := fun _ m => m.Sound) (fun _ _ _ _ hm hnext => hm.next hnext)
    sound_boot hrun

/-- In every run the processes are apart. -/
theorem isolated_of_reachable (h : m.Reachable) : m.Isolated := h.sound.owned.isolated

/-- A call without a fault, in which nobody goes on with a page that he did not get. -/
def proceed (m : Machine) (c : Pid × Call) : Option Machine :=
  if m.Enabled c.1 c.2 then
    match m.call c.1 c.2 with
    | .error _ => none
    | .ok (_, m) => if m.ram.corrupted then none else some m
  else none

/-- The machines that calls lead to, where `get_free_page` may fail. -/
def Proceeds (m : Machine) : Prop := ∃ cs, Transition.exec proceed cs boot = some m

/-- A machine in order, where a page may have been missing. -/
structure Orderly (m : Machine) : Prop where
  owned : m.Owned
  sane : m.ram.corrupted = false

theorem Orderly.proceed (h : m.Orderly) {c : Pid × Call} (hnext : m.proceed c = some m') :
    m'.Orderly := by
  unfold Machine.proceed at hnext
  split at hnext
  next hen =>
    split at hnext
    next => exact absurd hnext nofun
    next result m₁ hcall =>
      split at hnext
      next => exact absurd hnext nofun
      next hc =>
        obtain rfl := Option.some.inj hnext
        have hsane : m₁.ram.corrupted = false := Bool.eq_false_iff.mpr hc
        exact ⟨h.owned.call hen hcall hsane, hsane⟩
  next => exact absurd hnext nofun

theorem Proceeds.orderly (h : m.Proceeds) : m.Orderly := by
  obtain ⟨cs, hrun⟩ := h
  exact Transition.exec_invariant (P := fun _ m => m.Orderly)
    (fun _ _ _ _ hm hnext => hm.proceed hnext) ⟨owned_boot, rfl⟩ hrun

/-- A kernel thread becomes a user process. -/
def userProcess : List (Pid × Call) := [(0, .copyProcess true), (1, .moveToUserMode [0x41])]

/-- A kernel thread becomes a user process and forks, and its child executes a file. -/
def forkAndExec : List (Pid × Call) :=
  [(0, .copyProcess true), (1, .moveToUserMode [0x41]), (1, .copyProcess false), (1, .openFile 0),
    (2, .exec ⟨0, [1, 2, 3], 0⟩ 1 0), (1, .closeFile 0 0), (2, .malloc)]

set_option maxRecDepth 100000 in
theorem isolated_forkAndExec :
    ∃ m, Transition.exec next forkAndExec boot = some m ∧ m.Isolated := by
  have hrun : (Transition.exec next forkAndExec boot).isSome = true := by decide +kernel
  obtain ⟨m, hm⟩ := Option.isSome_iff_exists.mp hrun
  exact ⟨m, hm, isolated_of_reachable ⟨_, hm⟩⟩

end Machine

end Demoos
