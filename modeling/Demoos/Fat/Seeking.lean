import Demoos.Fat.File
import Demoos.Fat.Ownership

/-!
# The cursor of a file

The sectors of a file are those of the clusters of its chain, one after the other.  An open
file is in order if its cluster and its sector are those of the cursor, and if its buffer holds
that sector unless it is dirty.  Seeking keeps that, and the contents of the file, on a medium
that works; it can make the chain longer, and the chains of other files stay as they are.
-/

namespace Demoos.Fat

open Program
open Chains (Cell Chain Apart)
open Function (update update_self update_of_ne)

/-! ## The sectors of the clusters -/

namespace Geometry

/-- The sectors of a cluster. -/
def spc (g : Geometry) : Nat := 2 ^ g.clustShift

/-- The clusters lie behind the tables, within the medium. -/
structure Laid (g : Geometry) : Prop extends g.Regular where
  msk : g.clustMsk = 2 ^ g.clustShift - 1
  low_lt : ∀ s, g.Low s → s < g.dataSect
  data_end : g.dataSect + (g.clustCnt - 2) * 2 ^ g.clustShift ≤ 2 ^ 32

variable {g : Geometry} {c c' k k' : Nat} {cs : List Nat}

theorem spc_pos : 0 < g.spc := Nat.two_pow_pos _

theorem clustSize_eq : g.clustSize = 512 * g.spc := Nat.shiftLeft_eq _ _

theorem div_clustSize (off : Nat) : off / g.clustSize = off / 512 / g.spc := by
  rw [clustSize_eq, Nat.div_div_eq_div_mul]

/-- The cluster fits in front of the end of the medium. -/
theorem Laid.clust_end (hg : g.Laid) (h2 : 2 ≤ c) (hc : c < g.clustCnt) :
    g.dataSect + (c - 2) * g.spc + g.spc ≤ 2 ^ 32 := by
  have hmul : (c - 2) * g.spc + g.spc ≤ (g.clustCnt - 2) * g.spc := by
    rw [← Nat.succ_mul]
    exact Nat.mul_le_mul_right _ (by omega)
  have hend : g.dataSect + (g.clustCnt - 2) * g.spc ≤ 2 ^ 32 := hg.data_end
  omega

theorem Laid.clustToSect_eq (hg : g.Laid) (h2 : 2 ≤ c) (hc : c < g.clustCnt) :
    clustToSect g c = g.dataSect + (c - 2) * g.spc := by
  have hend := hg.clust_end h2 hc
  have hpos := g.spc_pos
  have hle := hg.clustCnt_le
  have hsub : (c + 2 ^ 32 - 2) % 2 ^ 32 = c - 2 := by omega
  rw [clustToSect, hsub, Nat.shiftLeft_eq, ← spc, Nat.mod_eq_of_lt (by omega), Nat.add_comm]

theorem Laid.sectToClust_clustToSect (hg : g.Laid) (h2 : 2 ≤ c) (hc : c < g.clustCnt)
    (hk : k < g.spc) : sectToClust g (clustToSect g c + k) = c := by
  have hend := hg.clust_end h2 hc
  have hle := hg.clustCnt_le
  rw [hg.clustToSect_eq h2 hc, sectToClust]
  have hsub : (g.dataSect + (c - 2) * g.spc + k + 2 ^ 32 - g.dataSect) % 2 ^ 32 =
      k + g.spc * (c - 2) := by
    rw [Nat.mul_comm g.spc]
    omega
  rw [hsub, Nat.shiftRight_eq_div_pow, ← spc, Nat.add_mul_div_left _ _ g.spc_pos,
    Nat.div_eq_of_lt hk]
  omega

/-- The clusters share no sector. -/
theorem Laid.clust_inj (hg : g.Laid) (h2 : 2 ≤ c) (hc : c < g.clustCnt) (h2' : 2 ≤ c')
    (hc' : c' < g.clustCnt) (hk : k < g.spc) (hk' : k' < g.spc)
    (he : clustToSect g c + k = clustToSect g c' + k') : c = c' ∧ k = k' := by
  have hcc : c = c' := by
    rw [← hg.sectToClust_clustToSect h2 hc hk, he, hg.sectToClust_clustToSect h2' hc' hk']
  subst hcc
  exact ⟨rfl, by omega⟩

theorem Laid.not_low (hg : g.Laid) (h2 : 2 ≤ c) (hc : c < g.clustCnt) :
    ¬ g.Low (clustToSect g c + k) := fun hlow => by
  have := hg.low_lt _ hlow
  rw [hg.clustToSect_eq h2 hc] at this
  omega

end Geometry

/-- Sector `i` of the file whose clusters are `cs`. -/
def fileSect (g : Geometry) (cs : List Nat) (i : Nat) : Nat :=
  clustToSect g (cs.getD (i / g.spc) 0) + i % g.spc

/-- The clusters of a chain are clusters of the data. -/
def InData (g : Geometry) (cs : List Nat) : Prop := ∀ c ∈ cs, 2 ≤ c ∧ c < g.clustCnt

section Sectors

variable {g : Geometry} {cs ds : List Nat} {i j c off : Nat}

theorem getD_mem (hi : i < cs.length * g.spc) : cs.getD (i / g.spc) 0 ∈ cs := by
  have hlt : i / g.spc < cs.length := (Nat.div_lt_iff_lt_mul g.spc_pos).mpr hi
  rw [List.getD_eq_getElem _ _ hlt]
  exact List.getElem_mem hlt

theorem sectAt_eq (hg : g.Laid) (h2 : 2 ≤ c) (hc : c < g.clustCnt) (off : Nat) :
    sectAt g c off = clustToSect g c + off / 512 % g.spc := by
  have hend := hg.clust_end h2 hc
  have hmod := Nat.mod_lt (off / 512) g.spc_pos
  rw [sectAt, hg.msk, Nat.and_two_pow_sub_one_eq_mod, ← Geometry.spc, hg.clustToSect_eq h2 hc,
    Nat.mod_eq_of_lt (by omega)]

theorem fileSect_inj (hg : g.Laid) (hcs : InData g cs) (hnodup : cs.Nodup)
    (hi : i < cs.length * g.spc) (hj : j < cs.length * g.spc)
    (he : fileSect g cs i = fileSect g cs j) : i = j := by
  have hci := hcs _ (getD_mem hi)
  have hcj := hcs _ (getD_mem hj)
  obtain ⟨hc, hmod⟩ := hg.clust_inj hci.1 hci.2 hcj.1 hcj.2 (Nat.mod_lt _ g.spc_pos)
    (Nat.mod_lt _ g.spc_pos) he
  have hli : i / g.spc < cs.length := (Nat.div_lt_iff_lt_mul g.spc_pos).mpr hi
  have hlj : j / g.spc < cs.length := (Nat.div_lt_iff_lt_mul g.spc_pos).mpr hj
  rw [List.getD_eq_getElem _ _ hli, List.getD_eq_getElem _ _ hlj] at hc
  have hdiv := (List.Nodup.getElem_inj_iff hnodup).mp hc
  rw [← Nat.div_add_mod i g.spc, ← Nat.div_add_mod j g.spc, hdiv, hmod]

/-- The sectors of two files that share no cluster. -/
theorem fileSect_ne (hg : g.Laid) (hcs : InData g cs) (hds : InData g ds)
    (hdisj : ∀ c ∈ cs, c ∉ ds) (hi : i < cs.length * g.spc) (hj : j < ds.length * g.spc) :
    fileSect g cs i ≠ fileSect g ds j := fun he => by
  have hci := hcs _ (getD_mem hi)
  have hcj := hds _ (getD_mem hj)
  have hc := (hg.clust_inj hci.1 hci.2 hcj.1 hcj.2 (Nat.mod_lt _ g.spc_pos)
    (Nat.mod_lt _ g.spc_pos) he).1
  exact hdisj _ (getD_mem hi) (hc ▸ getD_mem hj)

theorem fileSect_of_pre (h : cs <+: ds) (hi : i < cs.length * g.spc) :
    fileSect g ds i = fileSect g cs i := by
  have hlt : i / g.spc < cs.length := (Nat.div_lt_iff_lt_mul g.spc_pos).mpr hi
  obtain ⟨rest, rfl⟩ := h
  rw [fileSect, fileSect, List.getD_append _ _ _ _ hlt]

theorem not_low_fileSect (hg : g.Laid) (hcs : InData g cs) (hi : i < cs.length * g.spc) :
    ¬ g.Low (fileSect g cs i) := by
  have hc := hcs _ (getD_mem hi)
  exact hg.not_low hc.1 hc.2

end Sectors

/-! ## Following the chain -/

/-- A medium that works, in good order. -/
structure Fit (g : Geometry) (v : Volume) : Prop where
  sound : v.Sound
  quiet : v.Quiet
  reserved : Reserved g v
  readable : ¬ Broken g v
  hint : 2 ≤ v.lastUsed ∧ v.lastUsed < g.clustCnt

/-- The chain `cs` goes on to be `cs'`, and other chains stay. -/
structure Grown (g : Geometry) (cs : List Nat) (v : Volume) (cs' : List Nat) (t : Volume) : Prop
    extends Volume.Moved g v t where
  fit : Fit g t
  pre : cs <+: cs'
  chain : Chain (t.cells g) cs'
  data : InData g cs'
  apart : ∀ rest, Apart (v.cells g) (cs :: rest) → Apart (t.cells g) (cs' :: rest)
  low : cs' = cs ∨ g.Low t.disk.key
  count : (t.free g).card + cs'.length = (v.free g).card + cs.length

/-- Nothing has changed but the buffer of the volume. -/
structure Unmoved (g : Geometry) (v t : Volume) : Prop extends Volume.Moved g v t where
  fit : Fit g t
  view_eq' : t.view = v.view

variable {g : Geometry} {v u t : Volume} {f : File} {cs ds : List Nat} {c k : Nat}

theorem Grown.trans {cs' cs'' : List Nat} (h : Grown g cs v cs' u) (h' : Grown g cs' u cs'' t) :
    Grown g cs v cs'' t where
  toMoved := h.toMoved.trans h'.toMoved
  fit := h'.fit
  pre := h.pre.trans h'.pre
  chain := h'.chain
  data := h'.data
  apart rest hr := h'.apart rest (h.apart rest hr)
  low := by
    rcases h'.low with rfl | hlow
    · rcases h'.keyed with heq | hlow
      · rw [heq]
        exact h.low
      · exact .inr hlow
    · exact .inr hlow
  count := h'.count.trans h.count

theorem Unmoved.grown (h : Unmoved g v t) (hchain : Chain (v.cells g) cs)
    (hdata : InData g cs) : Grown g cs v cs t where
  toMoved := h.toMoved
  fit := h.fit
  pre := List.prefix_rfl
  chain := by rwa [cells_congr h.view_eq']
  data := hdata
  apart rest hr := by rwa [cells_congr h.view_eq']
  low := .inl rfl
  count := by rw [free_congr (cells_congr h.view_eq')]

/-- The active copy of the table is the same in two views. -/
theorem entry_of_tables (hg : g.Regular) (h : ∀ s, g.InTables s → t.view s = v.view s)
    (hc : c < g.clustCnt) : t.entry g c = v.entry g c := by
  have hin := hg.inTables_itemSect Geometry.fat0_mem_tables hc
  rw [Volume.entry, Volume.entry, Volume.item, Volume.item, h _ hin]

theorem cells_of_tables (hg : g.Regular) (h : ∀ s, g.InTables s → t.view s = v.view s) :
    t.cells g = v.cells g := by
  funext c
  rw [Volume.cells, Volume.cells]
  split
  next hc => rw [entry_of_tables hg h hc]
  next => rfl

theorem Fit.of_tables (hv : Fit g v) (hg : g.Regular) (hon : v.Onward t)
    (h : ∀ s, g.InTables s → t.view s = v.view s) (hlast : t.lastUsed = v.lastUsed) : Fit g t :=
  ⟨hon.sound hv.sound, hon.quiet hv.quiet,
    hv.reserved.of_used fun a ha => by rwa [cells_of_tables hg h],
    fun hb => hv.readable (hb.congr fun _ hc => entry_of_tables hg h hc), hlast ▸ hv.hint⟩

theorem Volume.Looked.fit (h : Volume.Looked g v t) (hg : g.Regular) (hv : Fit g v) : Fit g t :=
  hv.of_tables hg h.toOnward (fun s _ => congrFun h.view_eq s) h.lastUsed

theorem Volume.Looked.grown (h : Volume.Looked g v t) (hg : g.Regular) (hv : Fit g v)
    (hchain : Chain (v.cells g) cs) (hdata : InData g cs) : Grown g cs v cs t where
  toMoved := h.moved
  fit := h.fit hg hv
  pre := List.prefix_rfl
  chain := by rwa [cells_congr h.view_eq]
  data := hdata
  apart rest hr := by rwa [cells_congr h.view_eq]
  low := .inl rfl
  count := by rw [free_congr (cells_congr h.view_eq)]

theorem Taken.fit {prev : Nat} (h : Taken g prev c v t) (hpick : Picked g prev v c)
    (hv : Fit g v) : Fit g t := by
  refine ⟨h.sound hv.sound, h.quiet hv.quiet, hv.reserved.of_used fun a ha => ?_,
    h.readable hv.readable, ?_⟩
  · rw [h.cells_eq]
    exact taken_ne_free ha
  · rw [h.lastUsed]
    exact ⟨hv.reserved.two_le hpick.free, hpick.lt⟩

/-- A chain with a cluster behind its end. -/
theorem Taken.grown {a : Nat} (h : Taken g a c v t) (hpick : Picked g a v c)
    (hv : Fit g v) (ha : a ≠ 0) (hchain : Chain (v.cells g) (cs ++ [a]))
    (hdata : InData g (cs ++ [a])) : Grown g (cs ++ [a]) v (cs ++ [a] ++ [c]) t where
  toMoved := h.toMoved
  fit := h.fit hpick hv
  pre := List.prefix_append _ _
  chain := by
    rw [h.cells_eq, taken, if_neg ha]
    exact hchain.concat (hchain.notMem hpick.free)
  data b hb := by
    rcases List.mem_append.mp hb with hb | hb
    · exact hdata b hb
    · rw [List.mem_singleton.mp hb]
      exact ⟨hv.reserved.two_le hpick.free, hpick.lt⟩
  apart rest hr := by
    rw [h.cells_eq, taken, if_neg ha]
    exact hr.extend hpick.free
  low := .inr h.low
  count := by
    have hend : v.cells g a ≠ .free := hchain.ne_free (by simp)
    have hcard := card_free_taken hpick (fun _ => hend) h.cells_eq
    rw [List.length_append, List.length_singleton, ← hcard]
    omega

/-- The cell of the cluster in place `k` of a chain. -/
theorem cell_of_getElem? (hchain : Chain (v.cells g) cs) (hk : cs[k]? = some c) :
    (v.cells g c = .last ∧ ∃ ds, cs = ds ++ [c] ∧ k = ds.length) ∨
      ∃ d, v.cells g c = .link d ∧ cs[k + 1]? = some d := by
  induction cs generalizing k with
  | nil => cases hk
  | cons b cs ih =>
      cases cs with
      | nil =>
          cases k with
          | zero =>
              obtain rfl := Option.some.inj hk
              exact .inl ⟨Chain.singleton_iff.mp hchain, [], rfl, rfl⟩
          | succ k => cases hk
      | cons d cs =>
          obtain ⟨hlink, hrest⟩ := Chain.cons_cons_iff.mp hchain
          cases k with
          | zero =>
              obtain rfl := Option.some.inj hk
              exact .inr ⟨d, hlink, rfl⟩
          | succ k =>
              rw [List.getElem?_cons_succ] at hk
              rcases ih hrest hk with ⟨hlast, ds, hds, rfl⟩ | ⟨e, he, hnext⟩
              · exact .inl ⟨hlast, b :: ds, by rw [hds]; rfl, rfl⟩
              · exact .inr ⟨e, he, by rwa [List.getElem?_cons_succ]⟩

/-- A search that finds the volume full leaves one free cluster at most. -/
theorem Exhausted.card_free {prev : Nat} (h : Exhausted g prev v) (hr : Reserved g v) :
    (v.free g).card ≤ 1 := by
  have hhint : ∀ a ∈ v.free g, a = v.lastUsed := fun a ha => by
    rw [Volume.free, Chains.freeIn, Finset.mem_filter, Finset.mem_range] at ha
    by_contra hne
    exact h.others a (hr.two_le ha.2) ha.1 hne ha.2
  exact Finset.card_le_one.mpr fun a ha b hb => (hhint a ha).trans (hhint b hb).symm

/-- On a medium in good order a chain gets a cluster more, or the volume is full. -/
theorem stretchChain_fit (hg : g.Laid) (hv : Fit g v) {a : Nat}
    (hchain : Chain (v.cells g) (cs ++ [a])) (hdata : InData g (cs ++ [a])) {n : Nat}
    (hn : 2 * g.clustCnt < n) (out : Nat) :
    Meets (stretchChain g n a out) v
      (fun c t => Grown g (cs ++ [a]) v (cs ++ [a] ++ [c]) t)
      fun e t => e = .error .full ∧ (t.free g).card ≤ 1 ∧ Unmoved g v t := by
  have hreg := hg.toRegular
  have hle := hreg.clustCnt_le
  have hhint := hv.hint
  obtain ⟨h2, hlt⟩ := hdata a (by simp)
  refine (stretchChain_spec hreg hv.sound hv.reserved (by omega) hlt n out).mono
    (fun c t ht => ?_) fun e t he => ?_
  · cases ht with
    | early _ _ _ hzero _ _ => omega
    | taken hpick htaken _ _ => exact htaken.grown hpick hv (by omega) hchain hdata
  · obtain ⟨he, hends⟩ := he
    obtain ⟨hview, _, hlast⟩ := he.unchanged hv.quiet
    have hfull : e = .error .full := by
      rcases he.other with hspent | hfull | hnq | hbroken
      · exact absurd hspent (hends ⟨by omega, _, hhint.1, hhint.2, .inl rfl⟩ hn)
      · exact hfull
      · exact absurd hv.quiet hnq
      · exact absurd hbroken hv.readable
    obtain ⟨hcells, hx⟩ := he.full hfull
    refine ⟨hfull, ?_, he.toMoved, hv.of_tables hreg he.toOnward (fun s _ => congrFun hview s) hlast,
      hview⟩
    rw [Volume.free, hcells]
    exact hx.card_free hv.reserved

/-- One cluster further, behind the end of the chain if need be. -/
theorem followClust_spec (hg : g.Laid) (hv : Fit g v) (hchain : Chain (v.cells g) cs)
    (hdata : InData g cs) (hk : cs[k]? = some f.clust) {n : Nat} (hn : 2 * g.clustCnt < n) :
    Meets (followClust g n) (v, f)
      (fun _ s => ∃ cs' c, Grown g cs v cs' s.1 ∧ cs'[k + 1]? = some c ∧
        s.2 = { f with clust := c } ∧ cs'.length = max cs.length (k + 2))
      fun e s => e = .error .full ∧ (s.1.free g).card ≤ 1 ∧ s.2 = f ∧ Unmoved g v s.1 ∧
        cs.length = k + 1 := by
  have hmem : f.clust ∈ cs := List.mem_of_getElem? hk
  obtain ⟨h2, hlt⟩ := hdata _ hmem
  have hreg := hg.toRegular
  rw [followClust, meets_bind, meets_getFile, meets_bind, meets_onFst]
  refine (getFat_cells hreg hv.sound hlt).mono (fun r u hr => ?_) fun e t he => ?_
  · obtain ⟨hlook, hcell⟩ := hr
    have hgrown := hlook.grown hreg hv hchain hdata
    rcases cell_of_getElem? hchain hk with ⟨hlast, ds, rfl, rfl⟩ | ⟨d, hlink, hnext⟩
    · have hr2 : r.2 = .last := by
        rw [hlast] at hcell
        cases hr : r.2 <;> rw [hr] at hcell <;> first | rfl | cases hcell
      rw [hr2, if_neg (by simp), if_pos rfl, meets_bind, meets_onFst]
      refine (stretchChain_fit hg hgrown.fit hgrown.chain hdata hn r.1).mono (fun c t ht => ?_)
        fun e t he => ?_
      · rw [meets_setFile]
        exact ⟨_, c, hgrown.trans ht, by simp, rfl, by simp⟩
      · obtain ⟨hfull, hcard, hsame⟩ := he
        exact ⟨hfull, hcard, rfl, ⟨hlook.moved.trans hsame.toMoved, hsame.fit,
          hsame.view_eq'.trans hlook.view_eq⟩, by simp⟩
    · have hr2 : r.2 = .used := by
        rw [hlink] at hcell
        cases hr : r.2 <;> rw [hr] at hcell <;> first | rfl | cases hcell
      rw [hr2] at hcell ⊢
      obtain rfl : d = r.1 := Cell.link.inj (hlink.symm.trans hcell)
      rw [if_neg (by simp), if_neg (by simp), meets_bind, meets_pure, meets_setFile]
      have hplace := (List.getElem?_eq_some_iff.mp hnext).1
      exact ⟨cs, r.1, hgrown, hnext, rfl, by omega⟩
  · rcases he with he | ⟨_, _, hbroken⟩
    · exact absurd hv.quiet he.unquiet
    · exact absurd (by rw [Volume.cells, if_pos hlt, cellOf, hbroken]; rfl)
        (hchain.ne_unusable hmem)

/-- Some clusters further.  A walk of one cluster that fails has changed nothing. -/
theorem followChain_spec (hg : g.Laid) (hv : Fit g v) (hchain : Chain (v.cells g) cs)
    (hdata : InData g cs) (hk : cs[k]? = some f.clust) {n : Nat} (hn : 2 * g.clustCnt < n)
    (m : Nat) :
    Meets (followChain g n m) (v, f)
      (fun _ s => ∃ cs' c, Grown g cs v cs' s.1 ∧ cs'[k + m]? = some c ∧
        s.2 = { f with clust := c } ∧ cs'.length = max cs.length (k + m + 1))
      fun e s => e = .error .full ∧ (s.1.free g).card ≤ 1 ∧ m ≠ 0 ∧ cs.length ≤ k + m ∧
        (m = 1 → s.2 = f ∧ Unmoved g v s.1) ∧
        ∃ cs', Grown g cs v cs' s.1 ∧ cs'.length ≤ k + m := by
  induction m generalizing v f cs k with
  | zero =>
      have hplace := (List.getElem?_eq_some_iff.mp hk).1
      exact ⟨cs, f.clust, (Volume.Looked.refl g v).grown hg.toRegular hv hchain hdata, hk, rfl, by omega⟩
  | succ m ih =>
      refine ((followClust_spec hg hv hchain hdata hk hn).mono (fun _ _ h => h) fun e s he =>
        ?_).bind fun _ s hs => ?_
      · obtain ⟨hfull, hfree, hf, hsame, hlen⟩ := he
        exact ⟨hfull, hfree, Nat.succ_ne_zero m, by omega, fun _ => ⟨hf, hsame⟩, cs,
          hsame.grown hchain hdata, by omega⟩
      obtain ⟨cs', c, hgrown, hc, hf, hlen⟩ := hs
      obtain ⟨u, f'⟩ := s
      obtain rfl : f' = { f with clust := c } := hf
      refine (ih hgrown.fit hgrown.chain hgrown.data hc).mono (fun _ s hs => ?_) fun e s he => ?_
      · obtain ⟨cs'', d, hgrown', hd, hf, hlen'⟩ := hs
        refine ⟨cs'', d, hgrown.trans hgrown', ?_, hf, by omega⟩
        rwa [Nat.add_right_comm, Nat.add_assoc] at hd
      · have hpre := hgrown.pre.length_le
        obtain ⟨hfull, hfree, hm, hend, _, cs'', hgrown', hle⟩ := he
        exact ⟨hfull, hfree, Nat.succ_ne_zero m, by omega,
          fun hone => absurd (Nat.succ.inj hone) hm, cs'', hgrown.trans hgrown', by omega⟩

/-! ## Files in order -/

/-- The cursor, the sector and the buffer of an open file belong together. -/
structure FileOk (g : Geometry) (cs : List Nat) (v : Volume) (f : File) : Prop where
  fat : f.fat = true
  chain : Chain (v.cells g) cs
  data : InData g cs
  head : cs.head? = some f.sclust
  clust : cs[f.offset / g.clustSize]? = some f.clust
  sect : f.sect = fileSect g cs (f.offset / 512)
  buf : f.flags.dirty = false → f.buf = v.view f.sect
  -- the buffer of the volume has another sector
  key : ∀ i < cs.length * g.spc, v.disk.key ≠ fileSect g cs i

/-- The bytes of a file, those in its buffer included. -/
def content (g : Geometry) (cs : List Nat) (v : Volume) (f : File) (o : Nat) : BitVec 8 :=
  if o / 512 = f.offset / 512 then f.buf (o % 512) else v.view (fileSect g cs (o / 512)) (o % 512)

/-- What is gained in room, in units of `s`, is taken from the units that were free. -/
def Conserved (s room free room' free' : Nat) : Prop := free' * s + room' = free * s + room

theorem conserved_of_count (s : Nat) {k k' free free' : Nat} (h : free' + k' = free + k) :
    Conserved s (k * s) free (k' * s) free' := by
  rw [Conserved, ← Nat.add_mul, ← Nat.add_mul, h]

/-- The bytes that the clusters have room for. -/
def room (g : Geometry) (cs : List Nat) : Nat := cs.length * g.clustSize

theorem lt_room_iff {o : Nat} : o < room g cs ↔ o / 512 < cs.length * g.spc := by
  rw [room, Geometry.clustSize_eq, Nat.mul_left_comm, Nat.div_lt_iff_lt_mul (by omega),
    Nat.mul_comm 512]

theorem FileOk.offset_lt (h : FileOk g cs v f) : f.offset < room g cs := by
  obtain ⟨hlt, _⟩ := List.getElem?_eq_some_iff.mp h.clust
  rw [Geometry.div_clustSize] at hlt
  exact lt_room_iff.mpr ((Nat.div_lt_iff_lt_mul g.spc_pos).mp hlt)

/-- The sector of the cursor, from its cluster. -/
theorem fileSect_of_getElem? (hk : cs[k / g.spc]? = some c) :
    fileSect g cs k = clustToSect g c + k % g.spc := by
  rw [fileSect, List.getD_eq_getElem?_getD, hk]
  rfl

/-- The buffer of the volume does not come to have a sector of the file. -/
theorem Grown.key {cs' : List Nat} (h : Grown g cs v cs' t) (hg : g.Laid)
    (hkey : ∀ i < cs.length * g.spc, v.disk.key ≠ fileSect g cs i) :
    ∀ i < cs'.length * g.spc, t.disk.key ≠ fileSect g cs' i := by
  intro i hi
  have hlow : g.Low t.disk.key → t.disk.key ≠ fileSect g cs' i := fun hlow he =>
    not_low_fileSect hg h.data hi (he ▸ hlow)
  rcases h.low with heq | hl
  · subst heq
    rcases h.keyed with heq | hl
    · rw [heq]
      exact hkey i hi
    · exact hlow hl
  · exact hlow hl

theorem Grown.view_fileSect {cs' : List Nat} {i : Nat} (h : Grown g cs v cs' t) (hg : g.Laid)
    (hi : i < cs'.length * g.spc) : t.view (fileSect g cs' i) = v.view (fileSect g cs' i) :=
  h.view_eq _ (not_low_fileSect hg h.data hi)

/-! ## Moving the buffer -/

/-- The volume has `w` for its view, and is otherwise as it was. -/
structure Viewed (v : Volume) (w : Nat → Sector) (t : Volume) : Prop extends v.Onward t where
  view_eq : t.view = w
  key : t.disk.key = v.disk.key
  lastUsed : t.lastUsed = v.lastUsed

/-- Writing a sector behind the back of the buffer. -/
theorem opsWrite_spec {buf : Sector} {sect : Nat} (hq : v.Quiet) (hkey : v.disk.key ≠ sect) :
    Meets (opsWrite buf sect) v (fun ok t => ok = true ∧ Viewed v (update v.view sect buf) t)
      fun _ _ => False := by
  refine meets_opsWrite ⟨rfl, ⟨?_, ?_, rfl⟩, ?_, rfl, rfl⟩ fun hnq _ _ => absurd hq hnq
  · exact fun h => ⟨h.1, fun a ha => h.2 a (List.mem_of_mem_tail ha)⟩
  · exact fun h => ⟨h.coherent.write_other hkey.symm, h.whole⟩
  · exact WriteBack.Cache.view_write_other hkey.symm

/-- Reading a sector behind the back of the buffer. -/
theorem opsRead_spec {buf : Sector} {sect : Nat} (hq : v.Quiet) (hkey : v.disk.key ≠ sect) :
    Meets (opsRead buf sect) v
      (fun r t => r.1 = true ∧ r.2 = v.view sect ∧ Viewed v v.view t) fun _ _ => False := by
  refine meets_opsRead ⟨rfl, ?_, ⟨?_, ?_, rfl⟩, rfl, rfl, rfl⟩ fun hnq _ _ => absurd hq hnq
  · exact (WriteBack.Cache.view_other hkey.symm).symm
  · exact fun h => ⟨fun a ha => h.1 a (List.mem_of_mem_tail ha), h.2⟩
  · exact fun h => ⟨h.coherent, fun a ha => h.whole a (List.mem_of_mem_tail ha)⟩

theorem Viewed.trans {w w' : Nat → Sector} (h : Viewed v w u) (h' : Viewed u w' t) :
    Viewed v w' t :=
  ⟨h.toOnward.trans h'.toOnward, h'.view_eq, h'.key.trans h.key, h'.lastUsed.trans h.lastUsed⟩

theorem Viewed.refl (v : Volume) : Viewed v v.view v := ⟨.refl v, rfl, rfl, rfl⟩

/-- A dirty buffer goes back to its sector. -/
theorem flushFile_spec {ssect : Nat} (hq : v.Quiet) (hkey : v.disk.key ≠ ssect) :
    Meets (if f.flags.dirty then do
        onFst (do transferred (← opsWrite f.buf ssect))
        setFile fun f => { f with flags.dirty := false }
      else pure () : FileM Unit) (v, f)
      (fun _ s => Viewed v (if f.flags.dirty then update v.view ssect f.buf else v.view) s.1 ∧
        s.2 = { f with flags.dirty := false })
      fun _ _ => False := by
  split
  next hd =>
    rw [meets_bind, meets_onFst, meets_bind]
    refine (opsWrite_spec hq hkey).mono (fun ok t ht => ?_) fun _ _ he => he
    obtain ⟨rfl, ht⟩ := ht
    exact ⟨ht, rfl⟩
  next hd =>
    refine ⟨.refl v, ?_⟩
    have hclean : f.flags.dirty = false := by simpa using hd
    show f = _
    rw [← hclean]

theorem moveBuf_spec {ssect : Nat} (hq : v.Quiet) (hkey : v.disk.key ≠ ssect)
    (hkey' : v.disk.key ≠ f.sect) :
    Meets (moveBuf ssect) (v, f)
      (fun _ s =>
        Viewed v (if f.sect ≠ ssect ∧ f.flags.dirty then update v.view ssect f.buf else v.view)
          s.1 ∧
        s.2 = if f.sect ≠ ssect then { f with flags.dirty := false, buf := s.1.view f.sect }
          else f)
      fun _ _ => False := by
  rw [moveBuf, meets_bind, meets_getFile]
  by_cases hne : f.sect ≠ ssect
  · simp only [hne, ne_eq, not_false_eq_true, if_true, true_and]
    refine (flushFile_spec hq hkey).bind fun _ s hs => ?_
    obtain ⟨u, f'⟩ := s
    obtain ⟨hu, rfl⟩ := hs
    rw [meets_bind, meets_onFst]
    have hq' := hu.quiet hq
    refine (opsRead_spec hq' (hu.key ▸ hkey')).mono (fun r t hr => ?_) fun _ _ he => he
    obtain ⟨hok, hbuf, ht⟩ := hr
    rw [meets_bind, meets_setFile, meets_onFst, hok]
    refine ⟨hu.trans (hu.view_eq ▸ ht), ?_⟩
    show _ = _
    rw [hbuf, ht.view_eq]
  · simp only [hne, if_false, false_and]
    exact ⟨.refl v, rfl⟩

/-! ## Seeking -/

/-- Only the cursor of the file is another one. -/
structure Kin (f f' : File) : Prop where
  fat : f'.fat = f.fat
  sclust : f'.sclust = f.sclust
  size : f'.size = f.size
  dirSect : f'.dirSect = f.dirSect
  dirIdx : f'.dirIdx = f.dirIdx
  flags : f'.flags = { f.flags with dirty := f'.flags.dirty }

/-- The file has another cursor and maybe more room, and what belongs to others is as it was. -/
structure Worked (g : Geometry) (cs : List Nat) (v : Volume) (f : File) (cs' : List Nat)
    (t : Volume) (f' : File) : Prop where
  ok : FileOk g cs' t f'
  fit : Fit g t
  kin : Kin f f'
  pre : cs <+: cs'
  keyed : Volume.Keyed g v t
  apart : ∀ rest, Apart (v.cells g) (cs :: rest) → Apart (t.cells g) (cs' :: rest)
  count : (t.free g).card + cs'.length = (v.free g).card + cs.length
  view_eq : ∀ s, ¬ g.Low s → (∀ i < cs'.length * g.spc, s ≠ fileSect g cs' i) →
    t.view s = v.view s

/-- The contents of the file are what they were as well. -/
structure Sought (g : Geometry) (cs : List Nat) (v : Volume) (f : File) (cs' : List Nat)
    (t : Volume) (f' : File) : Prop extends Worked g cs v f cs' t f' where
  content_eq : ∀ o < room g cs, content g cs' t f' o = content g cs v f o

/-- The view once the buffer of the file has gone back to its sector. -/
def flushed (v : Volume) (f : File) (sect : Nat) : Nat → Sector :=
  if sect ≠ f.sect ∧ f.flags.dirty then update v.view f.sect f.buf else v.view

/-- What is in the sector of the cursor is in the buffer of the file, dirty or not. -/
theorem flushed_self (hok : FileOk g cs v f) {w : Volume} {cs' : List Nat}
    (hgrown : Grown g cs v cs' w) (hg : g.Laid) {sect : Nat} (hne : sect ≠ f.sect) :
    flushed w f sect f.sect = f.buf := by
  rw [flushed]
  split
  next => rw [update_self]
  next hc =>
    have hclean : f.flags.dirty = false := by simpa [hne] using hc
    have hoff := lt_room_iff.mp hok.offset_lt
    rw [hok.buf hclean, hok.sect]
    have hpre := fileSect_of_pre (g := g) hgrown.pre hoff
    have hlen := Nat.mul_le_mul_right g.spc hgrown.pre.length_le
    rw [← hpre]
    exact hgrown.view_fileSect hg (by omega)

theorem flushed_other {sect s : Nat} (hs : s ≠ f.sect) : flushed v f sect s = v.view s := by
  rw [flushed]
  split
  next => exact update_of_ne hs _ _
  next => rfl

theorem flushed_same : flushed v f f.sect = v.view := if_neg (by simp)

/-- The cursor in place `off`, from the place in the chain and the move of the buffer. -/
theorem sought_of_moved (hg : g.Laid) (hok : FileOk g cs v f) {w : Volume} {cs' : List Nat}
    (f₃ : File) {f' : File} {off : Nat} (hgrown : Grown g cs v cs' w) (hoff : f₃.offset = off)
    (hclust : cs'[off / g.clustSize]? = some f₃.clust)
    (hsect : f₃.sect = fileSect g cs' (off / 512)) (hbuf : f₃.buf = f.buf)
    (hflags : f₃.flags = f.flags) (hkin : Kin f f₃)
    (hview : Viewed w (flushed w f f₃.sect) t)
    (hf' : f' = if f₃.sect ≠ f.sect then
      { f₃ with flags.dirty := false, buf := t.view f₃.sect } else f₃) :
    Sought g cs v f cs' t f' ∧ f'.offset = off := by
  have hlen := Nat.mul_le_mul_right g.spc hgrown.pre.length_le
  have hi₀ := lt_room_iff.mp hok.offset_lt
  have hold : f.sect = fileSect g cs' (f.offset / 512) := by
    rw [hok.sect, fileSect_of_pre hgrown.pre hi₀]
  have hi : off / 512 < cs'.length * g.spc := by
    obtain ⟨hplace, _⟩ := List.getElem?_eq_some_iff.mp hclust
    rw [Geometry.div_clustSize] at hplace
    exact (Nat.div_lt_iff_lt_mul g.spc_pos).mp hplace
  have hlow : ∀ s, g.Low s → s ≠ f.sect := fun s hs he =>
    not_low_fileSect hg hgrown.data (by omega : f.offset / 512 < _) (hold ▸ he ▸ hs)
  have htables : ∀ s, g.InTables s → t.view s = w.view s := fun s hs => by
    rw [hview.view_eq, flushed_other (hlow s (.inl hs))]
  have hcells : t.cells g = w.cells g := cells_of_tables hg.toRegular htables
  have hsects : ∀ i, ∀ hi : i < cs.length * g.spc, i ≠ f.offset / 512 →
      t.view (fileSect g cs' i) = v.view (fileSect g cs i) := fun i hi hne => by
    have hother : fileSect g cs' i ≠ f.sect := fun he =>
      hne (fileSect_inj hg hgrown.data hgrown.chain.nodup (by omega) (by omega) (he.trans hold))
    rw [hview.view_eq, flushed_other hother, hgrown.view_fileSect hg (by omega),
      fileSect_of_pre hgrown.pre hi]
  have hhead : cs'.head? = some f₃.sclust := by
    rw [hkin.sclust, ← hok.head]
    obtain ⟨rest, rfl⟩ := hgrown.pre
    cases cs with
    | nil => exact absurd hok.head (by simp)
    | cons => rfl
  have hfile : f'.fat = f₃.fat ∧ f'.sclust = f₃.sclust ∧ f'.offset = f₃.offset ∧
      f'.clust = f₃.clust ∧ f'.sect = f₃.sect ∧ Kin f f' := by
    rw [hf']
    split
    next => exact ⟨rfl, rfl, rfl, rfl, rfl, hkin.fat, hkin.sclust, hkin.size, hkin.dirSect,
      hkin.dirIdx, by rw [hflags]⟩
    next => exact ⟨rfl, rfl, rfl, rfl, rfl, hkin⟩
  obtain ⟨hfat, hsclust, hoff', hclust', hsect', hkin'⟩ := hfile
  have hoff'' : f'.offset = off := hoff'.trans hoff
  refine ⟨⟨⟨⟨?_, ?_, hgrown.data, ?_, ?_, ?_, ?_, ?_⟩, ?_, hkin', hgrown.pre, ?_, ?_,
    by rw [free_congr hcells, hgrown.count], ?_⟩, ?_⟩, hoff''⟩
  · rw [hfat, hkin.fat, hok.fat]
  · rw [hcells]
    exact hgrown.chain
  · rw [hsclust, hhead]
  · rw [hoff'', hclust', hclust]
  · rw [hoff'', hsect', hsect]
  · intro hclean
    by_cases hmoved : f₃.sect ≠ f.sect
    · rw [hf', if_pos hmoved]
    · have heq : f₃.sect = f.sect := not_not.mp hmoved
      have hplace : off / 512 = f.offset / 512 := fileSect_inj hg hgrown.data
        hgrown.chain.nodup hi (by omega) (hsect.symm.trans (heq.trans hold))
      rw [hf', if_neg hmoved] at hclean ⊢
      rw [hbuf, hok.buf (hflags ▸ hclean), hview.view_eq, heq, flushed_same, hold,
        hgrown.view_fileSect hg (by omega), ← hold]
  · rw [hview.key]
    exact hgrown.key hg hok.key
  · exact hgrown.fit.of_tables hg.toRegular hview.toOnward htables hview.lastUsed
  · rw [Volume.Keyed, hview.key]
    exact hgrown.keyed
  · intro rest hr
    rw [hcells]
    exact hgrown.apart rest hr
  · intro s hs hns
    rw [hview.view_eq, flushed_other (fun he => hns _ (by omega) (he.trans hold)),
      hgrown.view_eq s hs]
  · intro o ho
    have hio := lt_room_iff.mp ho
    rw [content, content, hoff'']
    by_cases hmoved : f₃.sect ≠ f.sect
    · have hall : (if o / 512 = off / 512 then f'.buf (o % 512)
          else t.view (fileSect g cs' (o / 512)) (o % 512)) =
          t.view (fileSect g cs' (o / 512)) (o % 512) := by
        split
        next he => rw [hf', if_pos hmoved, hsect, he]
        next => rfl
      rw [hall]
      split
      next he => rw [he, ← hold, hview.view_eq, flushed_self hok hgrown hg hmoved]
      next hne => rw [hsects _ hio hne]
    · have heq : f₃.sect = f.sect := not_not.mp hmoved
      have hplace : off / 512 = f.offset / 512 := fileSect_inj hg hgrown.data
        hgrown.chain.nodup hi (by omega) (hsect.symm.trans (heq.trans hold))
      rw [hplace, hf', if_neg hmoved, hbuf]
      split
      next => rfl
      next hne => rw [hsects _ hio hne]

/-- What a seek leaves behind that finds the volume full. -/
structure Stuck (g : Geometry) (cs : List Nat) (v : Volume) (f : File) (off : Nat) (t : Volume)
    (f' : File) : Prop where
  full : (t.free g).card ≤ 1
  room_le : room g cs ≤ off
  grown : ∃ cs', Grown g cs v cs' t ∧ room g cs' ≤ off
  next : off / g.clustSize = f.offset / g.clustSize + 1 → f' = f ∧ Unmoved g v t

theorem room_le_iff {off : Nat} : room g cs ≤ off ↔ cs.length ≤ off / g.clustSize := by
  have hpos : 0 < g.clustSize := by
    have := g.spc_pos
    rw [Geometry.clustSize_eq]
    omega
  rw [room, Nat.le_div_iff_mul_le hpos]

/-- The last part of a seek, behind the walk on the chain. -/
theorem seekTo_moved (hg : g.Laid) (hok : FileOk g cs v f) {w : Volume} {cs' : List Nat}
    (f₂ : File) {off : Nat} (hgrown : Grown g cs v cs' w)
    (hclust : cs'[off / g.clustSize]? = some f₂.clust) (hsect : f₂.buf = f.buf)
    (hflags : f₂.flags = f.flags) (hkin : Kin f f₂) :
    Meets (do
        setFile fun f => { f with sect := sectAt g f.clust off, offset := off }
        moveBuf f.sect : FileM Unit) (w, f₂)
      (fun _ s => Sought g cs v f cs' s.1 s.2 ∧ s.2.offset = off) fun _ _ => False := by
  rw [meets_bind, meets_setFile]
  have hlen := Nat.mul_le_mul_right g.spc hgrown.pre.length_le
  have hi₀ := lt_room_iff.mp hok.offset_lt
  have hplace := hclust
  rw [Geometry.div_clustSize] at hplace
  have hi : off / 512 < cs'.length * g.spc :=
    (Nat.div_lt_iff_lt_mul g.spc_pos).mp (List.getElem?_eq_some_iff.mp hplace).1
  obtain ⟨h2, hlt⟩ := hgrown.data _ (List.mem_of_getElem? hclust)
  have hat : sectAt g f₂.clust off = fileSect g cs' (off / 512) := by
    rw [sectAt_eq hg h2 hlt, fileSect_of_getElem? hplace]
  have hkey := hgrown.key hg hok.key
  have hold : f.sect = fileSect g cs' (f.offset / 512) := by
    rw [hok.sect, fileSect_of_pre hgrown.pre hi₀]
  refine (moveBuf_spec hgrown.fit.quiet (hold ▸ hkey _ (by omega)) (hat ▸ hkey _ hi)).mono
    (fun _ s hs => ?_) fun _ _ he => he
  obtain ⟨hview, hf⟩ := hs
  refine sought_of_moved hg hok { f₂ with sect := sectAt g f₂.clust off, offset := off }
    hgrown rfl hclust hat hsect hflags
    ⟨hkin.fat, hkin.sclust, hkin.size, hkin.dirSect, hkin.dirIdx, hkin.flags⟩ ?_ hf
  rw [hflags, hsect] at hview
  exact hview

/-- What a seek to an offset gives. -/
structure Reached (g : Geometry) (cs : List Nat) (v : Volume) (f : File) (off : Nat)
    (cs' : List Nat) (t : Volume) (f' : File) : Prop extends Sought g cs v f cs' t f' where
  offset_eq : f'.offset = off
  length_eq : cs'.length = max cs.length (off / g.clustSize + 1)

/-- Where a seek ends, and what one that goes a cluster too far leaves behind. -/
theorem seekTo_spec (hg : g.Laid) (hv : Fit g v) (hok : FileOk g cs v f) {n : Nat}
    (hn : 2 * g.clustCnt < n) (off : Nat) :
    Meets (seekTo g n off) (v, f) (fun _ s => ∃ cs', Reached g cs v f off cs' s.1 s.2)
      fun e s => e = .error .full ∧ Stuck g cs v f off s.1 s.2 := by
  rw [seekTo, meets_bind, meets_getFile]
  have hsrc := (List.getElem?_eq_some_iff.mp hok.clust).1
  by_cases hback : off / g.clustSize < f.offset / g.clustSize
  · simp only [hback, if_true, Nat.sub_zero]
    rw [meets_bind, meets_setFile]
    have hhead : cs[0]? = some f.sclust := by rw [← List.head?_eq_getElem?, hok.head]
    refine ((followChain_spec (f := { f with
      clust := f.sclust, sect := clustToSect g f.sclust, offset := 0 }) hg hv hok.chain hok.data
      hhead hn (off / g.clustSize)).mono (fun _ _ h => h) fun e s he => ?_).bind fun _ s hs => ?_
    · have hend := he.2.2.2.1
      omega
    · obtain ⟨cs', c, hgrown, hc, hf, hlen⟩ := hs
      obtain ⟨w, f₂⟩ := s
      obtain rfl : f₂ = _ := hf
      rw [Nat.zero_add] at hc hlen
      exact (seekTo_moved hg hok { f with
        clust := c, sect := clustToSect g f.sclust, offset := 0 } hgrown hc rfl rfl
        ⟨rfl, rfl, rfl, rfl, rfl, rfl⟩).mono (fun _ _ h => ⟨cs', h.1, h.2, hlen⟩)
        fun _ _ he => he.elim
  · simp only [hback, if_false]
    rw [meets_bind, meets_pure]
    refine ((followChain_spec hg hv hok.chain hok.data hok.clust hn
      (off / g.clustSize - f.offset / g.clustSize)).mono (fun _ _ h => h) fun e s he => ?_).bind
      fun _ s hs => ?_
    · obtain ⟨hfull, hfree, hm, hend, hone, cs', hgrown, hle⟩ := he
      exact ⟨hfull, hfree, room_le_iff.mpr (by omega), ⟨cs', hgrown, room_le_iff.mpr (by omega)⟩,
        fun hnext => hone (by omega)⟩
    · obtain ⟨cs', c, hgrown, hc, hf, hlen⟩ := hs
      obtain ⟨w, f₂⟩ := s
      obtain rfl : f₂ = _ := hf
      rw [Nat.add_sub_cancel' (by omega)] at hc hlen
      exact (seekTo_moved hg hok { f with clust := c } hgrown hc rfl rfl
        ⟨rfl, rfl, rfl, rfl, rfl, rfl⟩).mono (fun _ _ h => ⟨cs', h.1, h.2, hlen⟩)
        fun _ _ he => he.elim

/-- A seek reaches its place, or the place is out of range, or the chain cannot grow to it. -/
theorem fileSeek_spec (hg : g.Laid) (hv : Fit g v) (hok : FileOk g cs v f) {n : Nat}
    (hn : 2 * g.clustCnt < n) (offset : Int) (seek : Whence) :
    Meets (fileSeek g n offset seek) (v, f)
      (fun _ s => ∃ off : Nat, seek.base f + offset = off ∧ off < 2 ^ 32 ∧
        ∃ cs', Reached g cs v f off cs' s.1 s.2)
      fun e s => ((seek.base f + offset < 0 ∨ 2 ^ 32 ≤ seek.base f + offset) ∧
          e = .error .eof ∧ s = (v, f)) ∨
        ∃ off : Nat, seek.base f + offset = off ∧ off < 2 ^ 32 ∧ e = .error .full ∧
          Stuck g cs v f off s.1 s.2 := by
  rw [fileSeek, meets_bind, meets_getFile]
  simp only [hok.fat, Bool.not_true, Bool.false_eq_true, if_false]
  split
  next hout =>
    rw [meets_fail]
    exact .inl ⟨by omega, rfl, rfl⟩
  next hin =>
    exact (seekTo_spec hg hv hok hn _).mono
      (fun _ s hs => ⟨(seek.base f + offset).toNat, by omega, by omega, hs⟩)
      fun e s he => .inr ⟨(seek.base f + offset).toNat, by omega, by omega, he⟩

/-! ## The small volume -/

theorem Geometry.laid_small : Geometry.small.Laid where
  toRegular := Geometry.regular_small
  msk := rfl
  low_lt s hs := by
    rcases hs with ⟨fs, hfs, _, hlt⟩ | rfl
    · have hle : fs ≤ 3 := by
        rcases Geometry.mem_tables hfs with rfl | ⟨rfl, _⟩ <;> decide
      exact Nat.lt_of_lt_of_le hlt (Nat.add_le_add_right hle 1)
    · decide
  data_end := by decide

theorem Volume.fit_small : Fit .small .small where
  sound := Volume.sound_small
  quiet := Volume.quiet_small
  reserved := Volume.reserved_small
  readable := Volume.readable_small
  hint := by decide

end Demoos.Fat
