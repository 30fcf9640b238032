import Demoos.Fat.Growth
import Demoos.Lib.Transition

/-!
# Who owns which cluster

A file or a directory owns the clusters of its chain and is known by the first of them.  The
calls of the library take clusters and give them up, in any order, and any of their transfers
may fail.  No cluster ever comes to have two owners: a chain that has lost its owner or its
link may leak clusters, but none of them is in another chain.

An owner gives up its chain with the call of `remove_chain`, whether that succeeds or not.

One thing spoils this.  If the first look of `create_chain` fails, it returns a byte of the stack
for the error, and if the byte is zero its caller takes the call for a success and owns a cluster
that nobody has allocated (`Blind`).  The runs here have no such call.
-/

namespace Demoos.Fat

open Program
open Chains (Cell Chain Owned OwnedAll freeIn)
open Function (update update_self update_of_ne)
open Relation (ReflTransGen)

/-- The last cluster of the chain that begins at `h`. -/
def Ends (g : Geometry) (v : Volume) (h a : Nat) : Prop :=
  ∃ cs, Chain (v.cells g) (cs ++ [a]) ∧ (cs ++ [a]).head? = some h

/-- The calls that change the table, with the first clusters of the chains that have owners.  A
call of `create_chain` is not blind. -/
inductive Step (g : Geometry) : List Nat × Volume → List Nat × Volume → Prop
  | created {v t heads c} (n out : Nat) (hsees : ¬ Blind g { v with infoDirty := true })
    (hrun : createChain g n out v = .ok c t) : Step g (heads, v) (c :: heads, t)
  | uncreated {v t heads e} (n out : Nat) (hrun : createChain g n out v = .error e t) :
    Step g (heads, v) (heads, t)
  | stretched {v t heads h a c} (n out : Nat) (hh : h ∈ heads) (hend : Ends g v h a)
    (hrun : stretchChain g n a out v = .ok c t) : Step g (heads, v) (heads, t)
  | unstretched {v t heads h a e} (n out : Nat) (hh : h ∈ heads) (hend : Ends g v h a)
    (hrun : stretchChain g n a out v = .error e t) : Step g (heads, v) (heads, t)
  | removed {v t heads h n} (hn : g.clustCnt < n) (hh : h ∈ heads)
    (hrun : removeChain g n h v = .ok () t) : Step g (heads, v) (heads.erase h, t)
  | unremoved {v t heads h n e} (hn : g.clustCnt < n) (hh : h ∈ heads)
    (hrun : removeChain g n h v = .error e t) : Step g (heads, v) (heads.erase h, t)
  | synced {v t heads} (hrun : syncFs g v = .ok () t) : Step g (heads, v) (heads, t)
  | unsynced {v t heads e} (hrun : syncFs g v = .error e t) : Step g (heads, v) (heads, t)
  -- the stack changes between the calls
  | stacked {v heads} (b : Nat) : Step g (heads, v) (heads, { v with stale := b })

variable {g : Geometry} {v u t : Volume} {c a h : Nat} {cs heads : List Nat}

/-- The chains of the owners share no cluster, and what else the calls rely on. -/
structure Allotted (g : Geometry) (s : List Nat × Volume) : Prop where
  owned : Owned (s.2.cells g) s.1
  heads : ∀ h ∈ s.1, 2 ≤ h
  sound : s.2.Sound
  reserved : Reserved g s.2
  lastUsed : s.2.lastUsed < 2 ^ 32

/-! ## Chains and links -/

theorem two_le_of_used {val : Nat} (h : clustFlags g val = some .used) : 2 ≤ val := by
  rw [clustFlags] at h
  split_ifs at h with _ _ _ h2
  · cases h
  · cases h
  · cases h
  · exact h2.1

theorem two_le_of_link (h : v.cells g a = .link c) : 2 ≤ c := by
  rw [Volume.cells] at h
  split_ifs at h
  rw [cellOf] at h
  cases hf : clustFlags g (v.entry g a) with
  | none => rw [hf] at h; cases h
  | some flags =>
      rw [hf] at h
      cases flags with
      | used => exact Cell.link.inj h ▸ two_le_of_used hf
      | free => cases h
      | bad => cases h
      | last => cases h

/-- The links of a chain do not lead to the reserved entries. -/
theorem two_le_of_mem (hc : Chain (v.cells g) (h :: cs)) (h2 : 2 ≤ h) : ∀ a ∈ h :: cs, 2 ≤ a := by
  induction cs generalizing h with
  | nil =>
      intro a ha
      rwa [List.mem_singleton.mp ha]
  | cons b cs ih =>
      obtain ⟨hlink, hrest⟩ := Chain.cons_cons_iff.mp hc
      intro a ha
      rcases List.mem_cons.mp ha with rfl | ha
      · exact h2
      · exact ih hrest (two_le_of_link hlink) a ha

theorem lt_of_mem_chain (hc : Chain (v.cells g) cs) (ha : a ∈ cs) : a < g.clustCnt :=
  lt_of_cells (hc.ne_unusable ha)

/-- A chain is no longer than the table. -/
theorem length_le_of_chain (hc : Chain (v.cells g) cs) : cs.length ≤ g.clustCnt := by
  have hsub : cs ⊆ List.range g.clustCnt := fun a ha => List.mem_range.mpr (lt_of_mem_chain hc ha)
  simpa using (hc.nodup.subperm hsub).length_le

/-! ## One call -/

theorem Allotted.moved {heads' : List Nat} (h : Allotted g (heads, v)) (hvt : Volume.Moved g v t)
    (howned : Owned (t.cells g) heads') (hheads : ∀ h ∈ heads', 2 ≤ h)
    (hreserved : Reserved g t) (hlast : t.lastUsed < 2 ^ 32) : Allotted g (heads', t) :=
  ⟨howned, hheads, hvt.sound h.sound, hreserved, hlast⟩

/-- Cells in use stay in use when a free one is taken. -/
theorem Reserved.of_used (hr : Reserved g v)
    (h : ∀ a, v.cells g a ≠ .free → t.cells g a ≠ .free) : Reserved g t :=
  ⟨h 0 hr.zero, h 1 hr.one⟩

theorem taken_ne_free {prev : Nat} {cells : Nat → Cell Nat} (ha : cells a ≠ .free) :
    taken prev c cells a ≠ .free := by
  have hlast : update cells c .last a ≠ .free := by
    by_cases hc : a = c
    · subst hc
      simp
    · rwa [update_of_ne hc]
  rw [taken]
  split
  next => exact hlast
  next =>
    by_cases hp : a = prev
    · subst hp
      simp
    · rwa [update_of_ne hp]

theorem taken_zero (cells : Nat → Cell Nat) : taken 0 c cells = update cells c .last := if_pos rfl

/-- A chain that goes on to the cluster that was taken. -/
theorem owned_stretched (howned : Owned (v.cells g) heads) (hh : h ∈ heads)
    (hend : Ends g v h a) (ha : a ≠ 0) (hc : v.cells g c = .free) :
    Owned (taken a c (v.cells g)) heads := by
  obtain ⟨cs, hchain, hhead⟩ := hend
  rw [taken, if_neg ha]
  exact howned.extend hh hchain hhead hc

/-- The end of a chain that has an owner. -/
theorem Ends.bounds (h : Ends g v c a) (h2 : 2 ≤ c) : 2 ≤ a ∧ a < g.clustCnt := by
  obtain ⟨cs, hchain, hhead⟩ := h
  have hmem : a ∈ cs ++ [a] := List.mem_append_right cs (List.mem_singleton_self a)
  refine ⟨?_, lt_of_mem_chain hchain hmem⟩
  obtain ⟨ds, hds⟩ := List.head?_eq_some_iff.mp hhead
  rw [hds] at hchain hmem
  exact two_le_of_mem hchain h2 a hmem

/-- The chain that begins at an owner, in the shape in which `remove_chain` takes it. -/
theorem chain_of_owned (howned : Owned (v.cells g) heads) (hh : h ∈ heads) :
    ∃ cs, Chain (v.cells g) (h :: cs) := by
  obtain ⟨ds, hchain, hds⟩ := howned.exists_chain hh
  obtain ⟨cs, rfl⟩ := List.head?_eq_some_iff.mp hds
  exact ⟨cs, hchain⟩

/-- Some clusters of the chain of `h` are free afterwards. -/
theorem Allotted.freed (hk : Allotted g (heads, v)) (hh : h ∈ heads) (hchain : Chain (v.cells g) (h :: cs))
    {ds : List Nat} (hds : ds ⊆ h :: cs) (hf : Freed g ds v t) : Allotted g (heads.erase h, t) := by
  have hnot : ∀ a, a ∉ h :: cs → t.cells g a = v.cells g a := fun a ha => by
    rw [hf.cells_eq]
    exact if_neg fun hmem => ha (hds hmem)
  have h2 := two_le_of_mem hchain (hk.heads h hh)
  refine hk.moved hf.toMoved (hk.owned.remove hh hchain rfl hnot)
    (fun b hb => hk.heads b (List.mem_of_mem_erase hb)) ⟨?_, ?_⟩ (hf.lastUsed ▸ hk.lastUsed)
  · have hzero : t.cells g 0 = v.cells g 0 := hnot 0 fun hm => by have := h2 0 hm; omega
    rw [hzero]
    exact hk.reserved.zero
  · have hone : t.cells g 1 = v.cells g 1 := hnot 1 fun hm => by have := h2 1 hm; omega
    rw [hone]
    exact hk.reserved.one

theorem Allotted.kept (hk : Allotted g (heads, v)) (hg : g.Regular) (h : Volume.Kept g v t) :
    Allotted g (heads, t) := by
  have hcells := h.cells_eq hg
  exact hk.moved h.moved (hcells ▸ hk.owned) hk.heads
    (hk.reserved.of_used fun a ha => by rwa [hcells]) (h.lastUsed ▸ hk.lastUsed)

/-- The cluster is taken, and the owners are said to have their chains. -/
theorem Allotted.stretched {prev : Nat} {heads' : List Nat} (hk : Allotted g (heads, v))
    (hg : g.Regular) (hpick : Picked g prev v c) (htaken : Taken g prev c v t)
    (howned : Owned (taken prev c (v.cells g)) heads') (hheads : ∀ h ∈ heads', 2 ≤ h) :
    Allotted g (heads', t) := by
  have hlt := hpick.lt
  have hle := hg.clustCnt_le
  refine hk.moved htaken.toMoved (htaken.cells_eq ▸ howned) hheads
    (hk.reserved.of_used fun a ha => by rw [htaken.cells_eq]; exact taken_ne_free ha) ?_
  rw [htaken.lastUsed]
  omega

/-- Whether the cluster is taken or not, the owners have their chains. -/
theorem Allotted.unstretched {prev : Nat} {e : Stop FatError} (hk : Allotted g (heads, v))
    (hg : g.Regular) (herr : Unstretched g prev v e t)
    (howned : ∀ c, Picked g prev v c → Owned (taken prev c (v.cells g)) heads) :
    Allotted g (heads, t) := by
  have hle := hg.clustCnt_le
  have hlast : t.lastUsed < 2 ^ 32 := by
    have := hk.lastUsed
    rcases herr.lastUsed with heq | hlt
    · rw [heq]
      exact hk.lastUsed
    · omega
  have hsame : t.cells g = v.cells g → Allotted g (heads, t) := fun heq =>
    hk.moved herr.toMoved (heq ▸ hk.owned) hk.heads
      (hk.reserved.of_used fun a ha => by rwa [heq]) hlast
  rcases herr.cells_eq with heq | ⟨c, hpick, hhalf⟩
  · exact hsame heq
  rcases hhalf.cells_eq with heq | heq | heq
  · exact hsame heq
  · refine hk.moved herr.toMoved ?_ hk.heads (hk.reserved.of_used fun a ha => ?_) hlast
    · rw [heq]
      exact hk.owned.lose hpick.free
    · rw [heq, ← taken_zero]
      exact taken_ne_free ha
  · refine hk.moved herr.toMoved (heq ▸ howned c hpick) hk.heads
      (hk.reserved.of_used fun a ha => ?_) hlast
    rw [heq]
    exact taken_ne_free ha

/-- Every call keeps the clusters with their owners. -/
theorem allotted_step {s s' : List Nat × Volume} (hg : g.Regular) (hstep : Step g s s')
    (hk : Allotted g s) : Allotted g s' := by
  have hcnt := hg.clustCnt_pos
  have hle := hg.clustCnt_le
  cases hstep with
  | created n out hsees hrun =>
      have hok := (stretchChain_spec hg hk.sound hk.reserved hk.lastUsed (by omega) n out).of_ok hrun
      cases hok with
      | early _ _ _ _ hblind _ => exact absurd hblind hsees
      | taken hpick htaken _ _ =>
          refine hk.stretched hg hpick htaken ?_ fun b hb => ?_
          · rw [taken_zero]
            exact hk.owned.create hpick.free
          · rcases List.mem_cons.mp hb with rfl | hb
            · exact hk.reserved.two_le hpick.free
            · exact hk.heads b hb
  | uncreated n out hrun =>
      have herr :=
        (stretchChain_spec hg hk.sound hk.reserved hk.lastUsed (by omega) n out).of_error hrun
      refine hk.unstretched hg herr.1 fun c hc => ?_
      · rw [taken_zero]
        exact hk.owned.lose hc.free
  | stretched n out hh hend hrun =>
      obtain ⟨h2, hlt⟩ := hend.bounds (hk.heads _ hh)
      have hok := (stretchChain_spec hg hk.sound hk.reserved hk.lastUsed hlt n out).of_ok hrun
      cases hok with
      | early _ _ _ hzero _ _ => omega
      | taken hpick htaken _ _ =>
          exact hk.stretched hg hpick htaken
            (owned_stretched hk.owned hh hend (by omega) hpick.free) hk.heads
  | unstretched n out hh hend hrun =>
      obtain ⟨h2, hlt⟩ := hend.bounds (hk.heads _ hh)
      have herr := (stretchChain_spec hg hk.sound hk.reserved hk.lastUsed hlt n out).of_error hrun
      exact hk.unstretched hg herr.1 fun c hc =>
        owned_stretched hk.owned hh hend (by omega) hc.free
  | removed hn hh hrun =>
      obtain ⟨cs, hchain⟩ := chain_of_owned hk.owned hh
      have hlen := length_le_of_chain hchain
      have hok := (removeChain_spec hg hk.sound hchain (by simp at hlen; omega)).of_ok hrun
      exact hk.freed hh hchain (List.Subset.refl _) hok.1
  | unremoved hn hh hrun =>
      obtain ⟨cs, hchain⟩ := chain_of_owned hk.owned hh
      have hlen := length_le_of_chain hchain
      have herr := (removeChain_spec hg hk.sound hchain (by simp at hlen; omega)).of_error hrun
      obtain ⟨_, _, k, hk'⟩ := herr
      exact hk.freed hh hchain (List.take_subset k _) hk'
  | synced hrun => exact hk.kept hg ((syncFs_spec hg.info_pos.ne' hk.sound).of_ok hrun).toKept
  | unsynced hrun =>
      exact hk.kept hg ((syncFs_spec hg.info_pos.ne' hk.sound).of_error hrun).2.2
  | stacked b =>
      exact ⟨hk.owned, hk.heads, ⟨hk.sound.coherent, hk.sound.whole⟩,
        ⟨hk.reserved.zero, hk.reserved.one⟩, hk.lastUsed⟩

/-- No cluster is in use without an owner, the free ones are counted, and the copies of the
table agree. -/
structure Balanced (g : Geometry) (s : List Nat × Volume) : Prop extends Allotted g s where
  ownedAll : OwnedAll (2 ≤ ·) (s.2.cells g) s.1
  count : s.2.freeCnt % 2 ^ 32 = (s.2.free g).card
  mirrored : Mirrored g s.2
  quiet : s.2.Quiet

theorem card_free_le (g : Geometry) (v : Volume) : (v.free g).card ≤ g.clustCnt := by
  have h := Finset.card_filter_le (Finset.range g.clustCnt) fun c => v.cells g c = .free
  rwa [Finset.card_range] at h

theorem free_congr (h : t.cells g = v.cells g) : t.free g = v.free g := by
  rw [Volume.free, h]
  rfl

theorem Mirrored.congr (hm : Mirrored g v) (h : t.view = v.view) : Mirrored g t := by
  intro fs hfs c hc
  rw [Volume.entry, Volume.item, Volume.item, h]
  exact hm fs hfs c hc

/-- One free cluster less. -/
theorem card_free_taken {prev : Nat} (hpick : Picked g prev v c)
    (hprev : prev ≠ 0 → v.cells g prev ≠ .free) (hcells : t.cells g = taken prev c (v.cells g)) :
    (t.free g).card + 1 = (v.free g).card := by
  have hlast : (freeIn (Finset.range g.clustCnt) (update (v.cells g) c .last)).card + 1 =
      (v.free g).card :=
    Chains.card_freeIn_take (by simp) (Finset.mem_range.mpr hpick.lt) hpick.free
  rw [Volume.free, hcells, taken]
  split
  next => exact hlast
  next hne =>
    have hused : update (v.cells g) c .last prev ≠ .free := by
      by_cases hc : prev = c
      · subst hc
        simp
      · rw [update_of_ne hc]
        exact hprev hne
    rw [Chains.freeIn_relink (by simp) hused]
    exact hlast

theorem Balanced.stretched {prev : Nat} {heads' : List Nat} (hb : Balanced g (heads, v))
    (hk : Allotted g (heads', t)) (hpick : Picked g prev v c) (htaken : Taken g prev c v t)
    (hmirror : Mirrored g v → Mirrored g t) (hprev : prev ≠ 0 → v.cells g prev ≠ .free)
    (howned : OwnedAll (2 ≤ ·) (taken prev c (v.cells g)) heads') : Balanced g (heads', t) := by
  refine ⟨hk, htaken.cells_eq ▸ howned, ?_, hmirror hb.mirrored, htaken.quiet hb.quiet⟩
  have hcard := card_free_taken hpick hprev htaken.cells_eq
  have hcount : v.freeCnt % 2 ^ 32 = (v.free g).card := hb.count
  show t.freeCnt % 2 ^ 32 = (t.free g).card
  rw [htaken.freeCnt]
  omega

theorem Balanced.same (hb : Balanced g (heads, v)) (hk : Allotted g (heads, t))
    (hcells : t.cells g = v.cells g) (hcount : t.freeCnt = v.freeCnt) (hm : Mirrored g t)
    (hq : t.Quiet) : Balanced g (heads, t) := by
  refine ⟨hk, ?_, ?_, hm, hq⟩
  · show OwnedAll (2 ≤ ·) (t.cells g) heads
    rw [hcells]
    exact hb.ownedAll
  · show t.freeCnt % 2 ^ 32 = (t.free g).card
    rw [hcount, free_congr hcells]
    exact hb.count

theorem Balanced.unstretched {prev : Nat} {e : Stop FatError} (hb : Balanced g (heads, v))
    (hk : Allotted g (heads, t)) (herr : Unstretched g prev v e t) : Balanced g (heads, t) := by
  obtain ⟨hview, hcount, _⟩ := herr.unchanged hb.quiet
  exact hb.same hk (cells_congr hview) hcount (hb.mirrored.congr hview) (herr.quiet hb.quiet)

/-- The end of a chain is not free. -/
theorem Ends.ne_free (h : Ends g v c a) : v.cells g a ≠ .free := by
  obtain ⟨cs, hchain, _⟩ := h
  exact hchain.ne_free (List.mem_append_right cs (List.mem_singleton_self a))

theorem balanced_step {s s' : List Nat × Volume} (hg : g.Regular) (hstep : Step g s s')
    (hb : Balanced g s) : Balanced g s' := by
  have hcnt := hg.clustCnt_pos
  have hk' := allotted_step hg hstep hb.toAllotted
  cases hstep with
  | created n out hsees hrun =>
      have hok := (stretchChain_spec hg hb.sound hb.reserved hb.lastUsed (by omega) n out).of_ok hrun
      cases hok with
      | early _ _ _ _ hblind _ => exact absurd hblind hsees
      | taken hpick htaken hmirror _ =>
          refine hb.stretched hk' hpick htaken hmirror (fun h => absurd rfl h) ?_
          rw [taken_zero]
          exact hb.ownedAll.create hpick.free
  | uncreated n out hrun =>
      exact hb.unstretched hk'
        ((stretchChain_spec hg hb.sound hb.reserved hb.lastUsed (by omega) n out).of_error hrun).1
  | stretched n out hh hend hrun =>
      obtain ⟨h2, hlt⟩ := hend.bounds (hb.heads _ hh)
      have hok := (stretchChain_spec hg hb.sound hb.reserved hb.lastUsed hlt n out).of_ok hrun
      cases hok with
      | early _ _ _ hzero _ _ => omega
      | taken hpick htaken hmirror _ =>
          refine hb.stretched hk' hpick htaken hmirror (fun _ => hend.ne_free) ?_
          obtain ⟨cs, hchain, hhead⟩ := hend
          rw [taken, if_neg (by omega)]
          exact hb.ownedAll.extend hh hchain hhead hpick.free
  | unstretched n out hh hend hrun =>
      obtain ⟨_, hlt⟩ := hend.bounds (hb.heads _ hh)
      exact hb.unstretched hk'
        ((stretchChain_spec hg hb.sound hb.reserved hb.lastUsed hlt n out).of_error hrun).1
  | @removed v t heads h n hn hh hrun =>
      obtain ⟨cs, hchain⟩ := chain_of_owned hb.owned hh
      have hlen := length_le_of_chain hchain
      obtain ⟨hfreed, hmirror, _⟩ :=
        (removeChain_spec hg hb.sound hchain (by simp at hlen; omega)).of_ok hrun
      refine ⟨hk', hb.ownedAll.remove hh hchain rfl (fun a ha => ?_) fun a ha => ?_, ?_,
        hmirror hb.mirrored, hfreed.quiet hb.quiet⟩
      · show t.cells g a = .free
        rw [hfreed.cells_eq]
        exact if_pos ha
      · show t.cells g a = v.cells g a
        rw [hfreed.cells_eq]
        exact if_neg ha
      · have hcard : (t.free g).card = (v.free g).card + (h :: cs).length := by
          rw [Volume.free, hfreed.cells_eq]
          exact Chains.card_freeIn_chain hchain fun a ha =>
            Finset.mem_range.mpr (lt_of_mem_chain hchain ha)
        have hcount : v.freeCnt % 2 ^ 32 = (v.free g).card := hb.count
        have hfree : t.freeCnt % 2 ^ 32 = (v.freeCnt + (h :: cs).length) % 2 ^ 32 :=
          hfreed.freeCnt
        have hle := card_free_le g t
        have hmax := hg.clustCnt_le
        show t.freeCnt % 2 ^ 32 = (t.free g).card
        rw [hfree]
        omega
  | unremoved hn hh hrun =>
      obtain ⟨cs, hchain⟩ := chain_of_owned hb.owned hh
      have hlen := length_le_of_chain hchain
      have herr := (removeChain_spec hg hb.sound hchain (by simp at hlen; omega)).of_error hrun
      exact absurd hb.quiet herr.2.1
  | synced hrun =>
      have hkept := ((syncFs_spec hg.info_pos.ne' hb.sound).of_ok hrun).toKept
      exact hb.same hk' (hkept.cells_eq hg) hkept.freeCnt (hkept.mirrored hg hb.mirrored)
        (hkept.quiet hb.quiet)
  | unsynced hrun =>
      exact absurd hb.quiet ((syncFs_spec hg.info_pos.ne' hb.sound).of_error hrun).2.1
  | stacked b => exact ⟨hk', hb.ownedAll, hb.count, hb.mirrored, hb.quiet⟩

/-- While the medium works, no cluster is lost in any run of calls, the count of the free
clusters is exact and the copies of the table agree. -/
theorem balanced_run {s s' : List Nat × Volume} (hg : g.Regular)
    (hrun : ReflTransGen (Step g) s s') (hb : Balanced g s) : Balanced g s' :=
  Transition.run_invariant (fun _ _ hb hstep => balanced_step hg hstep hb) hrun hb

/-! ## Runs on the small volume -/

theorem chains_small : Chains.Headed (Volume.small.cells .small) [2, 3] [[2], [3, 4]] where
  perm := .refl _
  apart := by
    refine ⟨?_, by decide⟩
    simp only [List.mem_cons, List.not_mem_nil, or_false, forall_eq_or_imp, forall_eq]
    refine ⟨Chain.singleton_iff.mpr ?_, Chain.cons_cons_iff.mpr ⟨?_, Chain.singleton_iff.mpr ?_⟩⟩
    all_goals simp [cells_small]

theorem balanced_start : Balanced .small ([2, 3], .small) where
  owned := ⟨_, chains_small⟩
  heads := by decide
  sound := Volume.sound_small
  reserved := Volume.reserved_small
  lastUsed := by decide
  ownedAll := by
    refine ⟨_, chains_small, fun a ha huse => ?_⟩
    simp only [cells_small] at huse
    have hlt : a < 5 := by
      by_contra hge
      rw [if_neg (by omega), if_neg hge] at huse
      split_ifs at huse <;> simp [Cell.InUse] at huse
    simp only [List.flatten_cons, List.flatten_nil]
    simp
    omega
  count := by decide
  mirrored := by
    have hall : ∀ fs ∈ Geometry.small.tables, ∀ c < 8,
        Volume.small.item fs c % 2 ^ 28 = Volume.small.entry .small c := by decide
    exact hall
  quiet := Volume.quiet_small

/-- The small volume on a medium that refuses its second write, with a zero byte on the stack. -/
def Volume.refusing : Volume := { Volume.small with writes := [.done, .refused], stale := 0 }

theorem not_blind_small : ¬ Blind .small { Volume.small with stale := 0, infoDirty := true } := by
  rintro ⟨_, _, e, t, hlook⟩
  obtain ⟨r, u, hr⟩ : ∃ r u, getFat .small (advance .small Volume.small.lastUsed)
      { Volume.small with stale := 0, infoDirty := true } = .ok r u := ⟨_, _, rfl⟩
  exact absurd (hr.symm.trans hlook) nofun

/-- The zero byte does no harm where the first look succeeds. -/
theorem balanced_small : ∃ t, createChain .small 20 0 { Volume.small with stale := 0 } = .ok 5 t ∧
    Balanced .small ([5, 2, 3], t) := by
  obtain ⟨t, hrun⟩ :
    ∃ t, createChain .small 20 0 { Volume.small with stale := 0 } = .ok 5 t := ⟨_, rfl⟩
  have hsteps : ReflTransGen (Step .small) ([2, 3], .small) ([5, 2, 3], t) :=
    .head (.stacked 0) (.single (.created 20 0 not_blind_small hrun))
  exact ⟨t, hrun, balanced_run Geometry.regular_small hsteps balanced_start⟩

end Demoos.Fat
