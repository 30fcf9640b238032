import Demoos.Fat.Directory
import Demoos.Fat.Seeking

/-!
# Going through a directory

The places of a directory are the entries of the sectors of its clusters, one after the other.
`dir_next` goes from a place to the next one.  It takes a sector that is a multiple of the
cluster size for the first one of a cluster, so it needs clusters that begin at such sectors:
in any other volume it leaves every cluster early.
-/

namespace Demoos.Fat

open Program
open Chains (Cell Chain Apart)
open Function (update update_self update_of_ne)

variable {g : Geometry} {v u t : Volume} {w w' w'' : DirState} {d : Dir} {cs ds : List Nat}
  {c i j k n : Nat}

/-! ## Places -/

/-- The clusters begin at multiples of their size. -/
def Geometry.Aligned (g : Geometry) : Prop := g.dataSect % g.spc = 0

/-- The count of the places of a directory. -/
def places (g : Geometry) (cs : List Nat) : Nat := cs.length * g.spc * 16

/-- The entry in place `j`. -/
def slot (g : Geometry) (cs : List Nat) (v : Volume) (j : Nat) : Entry :=
  entryAt (v.view (fileSect g cs (j / 16))) (32 * (j % 16))

/-- The handle is at place `j`. -/
structure At (g : Geometry) (cs : List Nat) (d : Dir) (j : Nat) : Prop where
  clust : cs[j / 16 / g.spc]? = some d.clust
  sect : d.sect = fileSect g cs (j / 16)
  idx : d.idx = 32 * (j % 16)

/-- The directory of the clusters `cs` in a volume in good order. -/
structure DirOk (g : Geometry) (cs : List Nat) (v : Volume) : Prop where
  fit : Fit g v
  chain : Chain (v.cells g) cs
  data : InData g cs

/-- Nothing has changed but the buffer of the volume, and that for the sake of the directory. -/
structure Browsed (g : Geometry) (cs : List Nat) (v t : Volume) : Prop extends v.Same t where
  place : t.disk.key = v.disk.key ∨ g.Low t.disk.key ∨
    ∃ i < cs.length * g.spc, t.disk.key = fileSect g cs i

/-- The handle has moved to place `j`, and nothing else has changed. -/
structure Moved (g : Geometry) (cs : List Nat) (w w' : DirState) (j : Nat) : Prop where
  state : ∃ d, w' = { w with dir := d }
  fat : w'.dir.fat = w.dir.fat
  sclust : w'.dir.sclust = w.dir.sclust
  place : At g cs w'.dir j

theorem Moved.trans {ds : List Nat} (h : Moved g cs w w' j) (h' : Moved g ds w' w'' k) :
    Moved g ds w w'' k := by
  obtain ⟨d, rfl⟩ := h.state
  exact ⟨h'.state, h'.fat.trans h.fat, h'.sclust.trans h.sclust, h'.place⟩

theorem lt_places_iff : j < places g cs ↔ j / 16 < cs.length * g.spc := by
  rw [places, Nat.div_lt_iff_lt_mul (by omega)]

theorem At.lt_places (h : At g cs d j) : j < places g cs := by
  have hlt := (List.getElem?_eq_some_iff.mp h.clust).1
  rw [lt_places_iff]
  exact (Nat.div_lt_iff_lt_mul g.spc_pos).mp hlt

theorem At.mem (h : At g cs d j) : d.clust ∈ cs := List.mem_of_getElem? h.clust

theorem At.sect_eq (h : At g cs d j) : d.sect = clustToSect g d.clust + j / 16 % g.spc := by
  rw [h.sect, fileSect, List.getD_eq_getElem?_getD, h.clust, Option.getD_some]

theorem At.clust_zero (h : At g cs d 0) : cs[0]? = some d.clust := by
  have hclust := h.clust
  rwa [Nat.zero_div] at hclust

theorem At.sect_zero (h : At g cs d 0) : d.sect = clustToSect g d.clust := by
  rw [h.sect_eq, Nat.zero_div, Nat.zero_mod, Nat.add_zero]

theorem Browsed.refl (g : Geometry) (cs : List Nat) (v : Volume) : Browsed g cs v v :=
  ⟨.refl v, .inl rfl⟩

theorem Browsed.trans (h : Browsed g cs v u) (h' : Browsed g cs u t) : Browsed g cs v t := by
  refine ⟨h.toSame.trans h'.toSame, ?_⟩
  rcases h'.place with heq | hplace
  · rw [heq]
    exact h.place
  · exact .inr hplace

theorem Volume.Looked.browsed (h : Volume.Looked g v t) : Browsed g cs v t :=
  ⟨h.toSame, h.keyed.imp_right .inl⟩

theorem Volume.Same.fit (h : v.Same t) (hg : g.Regular) (hv : Fit g v) : Fit g t :=
  hv.of_tables hg h.toOnward (fun s _ => congrFun h.view_eq s) h.lastUsed

theorem DirOk.same (hv : DirOk g cs v) (hg : g.Regular) (h : v.Same t) : DirOk g cs t :=
  ⟨h.fit hg hv.fit, by rw [cells_congr h.view_eq]; exact hv.chain, hv.data⟩

theorem slot_congr (h : t.view = v.view) : slot g cs t j = slot g cs v j := by
  rw [slot, slot, h]

theorem fileSect_pos (hg : g.Laid) (hcs : InData g cs) (hi : i < cs.length * g.spc) :
    fileSect g cs i ≠ 0 := by
  have hc := hcs _ (getD_mem hi)
  have hinfo := hg.low_lt g.infoSect (.inr rfl)
  rw [fileSect, hg.clustToSect_eq hc.1 hc.2]
  omega

/-- `update_buf` gets the sector of the handle. -/
theorem updateDir_spec (hg : g.Laid) (hv : DirOk g cs v) (hat : At g cs w.dir j) :
    Meets updateDir (v, w)
      (fun _ s => Browsed g cs v s.1 ∧ s.2 = w ∧ s.1.disk.key = w.dir.sect ∧
        s.1.disk.value = v.view w.dir.sect)
      fun _ _ => False := by
  have hi := lt_places_iff.mp hat.lt_places
  rw [updateDir, meets_bind, meets_getDir, meets_onFst]
  refine (updateBuf_spec v _).mono (fun _ t ht => ?_) fun _ _ he => he.unquiet hv.fit.quiet
  obtain ⟨hsame, hkey, hvalue⟩ := ht
  refine ⟨⟨hsame, .inr (.inr ⟨_, hi, ?_⟩)⟩, rfl, hkey, ?_⟩
  · rw [hkey]
    exact hat.sect
  · refine hvalue hv.fit.sound ?_
    show w.dir.sect ≠ 0
    rw [hat.sect]
    exact fileSect_pos hg hv.data hi

/-- The entry in the buffer is the one in the place of the handle. -/
theorem At.entryAt_eq (h : At g cs d j) {buf : Sector} (hbuf : buf = v.view d.sect) :
    entryAt buf d.idx = slot g cs v j := by
  rw [hbuf, slot, h.sect, h.idx]

/-! ## `dir_next` -/

theorem succ_div_mod {m : Nat} (h : i % m + 1 < m) :
    (i + 1) / m = i / m ∧ (i + 1) % m = i % m + 1 := by
  refine (Nat.div_mod_unique (by omega)).mpr ⟨?_, h⟩
  have := Nat.mod_add_div i m
  omega

theorem succ_div_mod_end {m : Nat} (h : i % m + 1 = m) :
    (i + 1) / m = i / m + 1 ∧ (i + 1) % m = 0 := by
  refine (Nat.div_mod_unique (by omega)).mpr ⟨?_, by omega⟩
  have := Nat.mod_add_div i m
  rw [Nat.mul_succ]
  omega

/-- The test of `dir_next` for the end of a cluster. -/
theorem sect_and_msk (hg : g.Laid) (s : Nat) : s % 2 ^ 32 &&& g.clustMsk = s % g.spc := by
  have hend : g.dataSect + (g.clustCnt - 2) * g.spc ≤ 2 ^ 32 := hg.data_end
  have hcnt := hg.clustCnt_pos
  have hle : g.spc ≤ (g.clustCnt - 2) * g.spc := Nat.le_mul_of_pos_left _ (by omega)
  have hshift : g.clustShift ≤ 32 := by
    rw [← Nat.pow_le_pow_iff_right (a := 2) (by omega)]
    show g.spc ≤ _
    omega
  have hdvd : g.spc ∣ 2 ^ 32 := Nat.pow_dvd_pow 2 hshift
  rw [hg.msk, Nat.and_two_pow_sub_one_eq_mod]
  exact Nat.mod_mod_of_dvd _ hdvd

/-- What `dir_next` does at the end of a sector. -/
def dirNextSect (g : Geometry) : DirM Unit := do
  setDir fun d => { d with idx := 0, sect := (d.sect + 1) % 2 ^ 32 }
  let d ← getDir
  if d.sect &&& g.clustMsk ≠ 0 then pure ()
  else do
    let r ← onFst (getFat g d.clust)
    if r.2 = .bad ∨ r.2 = .free then fail .broken
    else if r.2 = .last then fail .eof
    else dirAtClust g r.1

theorem dirNext_eq (g : Geometry) : dirNext g = (do
    setDir fun d => { d with idx := (d.idx + 32) % 2 ^ 16 }
    let d ← getDir
    if d.idx < 512 then pure () else dirNextSect g) := rfl

/-- Within a sector. -/
theorem dirNext_within {Q : PUnit → Volume × DirState → Prop}
    {E : Stop FatError → Volume × DirState → Prop} (hidx : w.dir.idx = 32 * (j % 16))
    (hj : j % 16 < 15)
    (h : Q ⟨⟩ (v, { w with dir := { w.dir with idx := 32 * (j % 16 + 1) } })) :
    Meets (dirNext g) (v, w) Q E := by
  have hnext : (w.dir.idx + 32) % 2 ^ 16 = 32 * (j % 16 + 1) := by omega
  rw [dirNext_eq, meets_bind, meets_setDir, meets_bind, meets_getDir]
  dsimp only
  rw [hnext, if_pos (by omega), meets_pure]
  exact h

/-- At the end of a sector. -/
theorem dirNext_sect {Q : PUnit → Volume × DirState → Prop}
    {E : Stop FatError → Volume × DirState → Prop} (hidx : w.dir.idx = 32 * (j % 16))
    (hj : j % 16 = 15)
    (h : Meets (dirNextSect g) (v, { w with dir := { w.dir with idx := 512 } }) Q E) :
    Meets (dirNext g) (v, w) Q E := by
  have hnext : (w.dir.idx + 32) % 2 ^ 16 = 512 := by omega
  rw [dirNext_eq, meets_bind, meets_setDir, meets_bind, meets_getDir]
  dsimp only
  rw [hnext, if_neg (by omega)]
  exact h

/-- Within a cluster, as `dir_next` sees it. -/
theorem dirNextSect_within {Q : PUnit → Volume × DirState → Prop}
    {E : Stop FatError → Volume × DirState → Prop} (hg : g.Laid)
    (hmsk : (w.dir.sect + 1) % g.spc ≠ 0)
    (h : Q ⟨⟩ (v, { w with dir := { w.dir with idx := 0, sect := (w.dir.sect + 1) % 2 ^ 32 } })) :
    Meets (dirNextSect g) (v, w) Q E := by
  rw [dirNextSect, meets_bind, meets_setDir, meets_bind, meets_getDir]
  dsimp only
  rw [sect_and_msk hg, if_pos hmsk, meets_pure]
  exact h

/-- At the end of a cluster, as `dir_next` sees it: to the first place of the next cluster, or
to an error behind the last one. -/
theorem dirNextSect_cross (hg : g.Laid) (hv : DirOk g cs v) (hk : cs[k]? = some w.dir.clust)
    (hmsk : (w.dir.sect + 1) % g.spc = 0) :
    Meets (dirNextSect g) (v, w)
      (fun _ s => Browsed g cs v s.1 ∧ ∃ c, cs[k + 1]? = some c ∧
        s.2 = { w with dir := { w.dir with clust := c, sect := clustToSect g c, idx := 0 } })
      fun e s => e = .error .eof ∧ Browsed g cs v s.1 ∧ cs.length = k + 1 ∧
        s.2 = { w with dir := { w.dir with idx := 0, sect := (w.dir.sect + 1) % 2 ^ 32 } } := by
  have hmem : w.dir.clust ∈ cs := List.mem_of_getElem? hk
  obtain ⟨h2, hlt⟩ := hv.data _ hmem
  rw [dirNextSect, meets_bind, meets_setDir, meets_bind, meets_getDir]
  dsimp only
  rw [sect_and_msk hg, if_neg (by simpa using hmsk), meets_bind, meets_onFst]
  refine (getFat_cells hg.toRegular hv.fit.sound hlt).mono (fun r u hr => ?_) fun e t he => ?_
  · obtain ⟨hlook, hcell⟩ := hr
    rcases cell_of_getElem? hv.chain hk with ⟨hlast, ds, rfl, rfl⟩ | ⟨c, hlink, hnext⟩
    · have hr2 : r.2 = .last := by
        rw [hlast] at hcell
        cases hr : r.2 <;> rw [hr] at hcell <;> first | rfl | cases hcell
      rw [hr2, if_neg (by simp), if_pos rfl, meets_fail]
      exact ⟨rfl, hlook.browsed, by simp, rfl⟩
    · have hr2 : r.2 = .used := by
        rw [hlink] at hcell
        cases hr : r.2 <;> rw [hr] at hcell <;> first | rfl | cases hcell
      rw [hr2] at hcell ⊢
      obtain rfl : c = r.1 := Cell.link.inj (hlink.symm.trans hcell)
      rw [if_neg (by simp), if_neg (by simp), dirAtClust, meets_setDir]
      exact ⟨hlook.browsed, r.1, hnext, rfl⟩
  · rcases he with he | ⟨_, _, hbroken⟩
    · exact absurd hv.fit.quiet he.unquiet
    · exact absurd (by rw [Volume.cells, if_pos hlt, cellOf, hbroken]; rfl)
        (hv.chain.ne_unusable hmem)

/-- Where the test for the end of a cluster has to hold. -/
theorem At.sect_mod (ha : g.Aligned) (hg : g.Laid) (hcs : InData g cs) (h : At g cs d j) :
    (d.sect + 1) % g.spc = (j / 16 % g.spc + 1) % g.spc := by
  obtain ⟨h2, hlt⟩ := hcs _ h.mem
  rw [h.sect_eq, hg.clustToSect_eq h2 hlt]
  have hdata : g.dataSect = g.spc * (g.dataSect / g.spc) := by
    have := Nat.mod_add_div g.dataSect g.spc
    rw [Geometry.Aligned] at ha
    omega
  rw [hdata, Nat.mul_comm (d.clust - 2), ← Nat.mul_add, Nat.add_assoc, Nat.mul_add_mod]

/-- How `dir_next` fails: behind the last place. -/
structure Past (g : Geometry) (cs : List Nat) (v : Volume) (w : DirState) (j : Nat)
    (e : Stop FatError) (s : Volume × DirState) : Prop where
  eof : e = .error .eof
  browsed : Browsed g cs v s.1
  state : s.2 =
    { w with dir := { w.dir with idx := 0, sect := (w.dir.sect + 1) % 2 ^ 32 } }
  last : j + 1 = places g cs
  length_eq : cs.length = j / 16 / g.spc + 1

/-- The next place in the same sector. -/
theorem At.succ (h : At g cs d j) (hj : j % 16 + 1 < 16) :
    At g cs { d with idx := 32 * (j % 16 + 1) } (j + 1) := by
  obtain ⟨hdiv, hmod⟩ := succ_div_mod hj
  refine ⟨?_, ?_, ?_⟩
  · rw [hdiv]
    exact h.clust
  · rw [hdiv]
    exact h.sect
  · rw [hmod]

/-- The first place of the next sector of the cluster. -/
theorem At.succ_sect (h : At g cs d j) (hj : j % 16 + 1 = 16) (hi : j / 16 % g.spc + 1 < g.spc)
    {s : Nat} (hs : s = d.sect + 1) : At g cs { d with idx := 0, sect := s } (j + 1) := by
  obtain ⟨hdiv, hmod⟩ := succ_div_mod_end hj
  obtain ⟨hdiv', hmod'⟩ := succ_div_mod hi
  refine ⟨?_, ?_, ?_⟩
  · rw [hdiv, hdiv']
    exact h.clust
  · rw [hdiv, fileSect, hdiv', hmod', hs, h.sect]
    rfl
  · rw [hmod]

/-- The first place of the next cluster. -/
theorem At.succ_clust (hj : j % 16 + 1 = 16) (hi : j / 16 % g.spc + 1 = g.spc)
    (hc : cs[j / 16 / g.spc + 1]? = some c) :
    At g cs { d with clust := c, sect := clustToSect g c, idx := 0 } (j + 1) := by
  obtain ⟨hdiv, hmod⟩ := succ_div_mod_end hj
  obtain ⟨hdiv', hmod'⟩ := succ_div_mod_end hi
  refine ⟨?_, ?_, ?_⟩
  · rw [hdiv, hdiv', hc]
  · rw [hdiv, fileSect, hdiv', hmod', List.getD_eq_getElem?_getD, hc, Option.getD_some,
      Nat.add_zero]
  · rw [hmod]

/-- No sector of a cluster is the last one that there can be but the last of the cluster. -/
theorem At.sect_succ_lt (hg : g.Laid) (hcs : InData g cs) (h : At g cs d j)
    (hi : j / 16 % g.spc + 1 < g.spc) : d.sect + 1 < 2 ^ 32 := by
  obtain ⟨h2, hc⟩ := hcs _ h.mem
  rw [h.sect_eq, hg.clustToSect_eq h2 hc]
  exact Nat.lt_of_lt_of_le (by omega) (hg.clust_end h2 hc)

/-- Where `dir_next` sees no end of a cluster, it goes to the next place. -/
theorem dirNext_inside (hg : g.Laid) (hcs : InData g cs) (hat : At g cs w.dir j)
    (hin : j % 16 = 15 → j / 16 % g.spc + 1 < g.spc ∧ (w.dir.sect + 1) % g.spc ≠ 0) :
    Meets (dirNext g) (v, w) (fun _ s => s.1 = v ∧ Moved g cs w s.2 (j + 1))
      fun _ _ => False := by
  have hjlt := Nat.mod_lt j (show 16 > 0 by omega)
  rcases Nat.lt_or_ge (j % 16) 15 with hlt | hge
  · exact dirNext_within hat.idx hlt ⟨rfl, ⟨_, rfl⟩, rfl, rfl, hat.succ (by omega)⟩
  have hjend : j % 16 + 1 = 16 := by omega
  obtain ⟨hi, hne⟩ := hin (by omega)
  have hmod := Nat.mod_eq_of_lt (hat.sect_succ_lt hg hcs hi)
  exact dirNext_sect hat.idx (by omega)
    (dirNextSect_within hg hne ⟨rfl, ⟨_, rfl⟩, rfl, rfl, hat.succ_sect hjend hi hmod⟩)

/-- In an aligned volume `dir_next` goes to the next place. -/
theorem dirNext_spec (hg : g.Laid) (ha : g.Aligned) (hv : DirOk g cs v)
    (hat : At g cs w.dir j) :
    Meets (dirNext g) (v, w)
      (fun _ s => Browsed g cs v s.1 ∧ Moved g cs w s.2 (j + 1)) (Past g cs v w j) := by
  have hsect := hat.sect_mod ha hg hv.data
  have hslt := Nat.mod_lt (j / 16) g.spc_pos
  by_cases hin : j % 16 = 15 → j / 16 % g.spc + 1 < g.spc
  · refine (dirNext_inside hg hv.data hat fun hj => ⟨hin hj, ?_⟩).mono (fun _ s hs => ?_)
      fun _ _ he => he.elim
    · rw [hsect, Nat.mod_eq_of_lt (hin hj)]
      omega
    · exact ⟨hs.1 ▸ .refl g cs s.1, hs.2⟩
  rw [Classical.not_imp] at hin
  have hiend : j / 16 % g.spc + 1 = g.spc := by omega
  rw [hiend, Nat.mod_self] at hsect
  refine dirNext_sect hat.idx hin.1 ((dirNextSect_cross hg hv
    (w := { w with dir := { w.dir with idx := 512 } }) hat.clust hsect).mono (fun _ s hs => ?_)
    fun e s he => ?_)
  · obtain ⟨hbrowsed, c, hc, hs⟩ := hs
    exact ⟨hbrowsed, ⟨_, hs⟩, by rw [hs], by rw [hs],
      by rw [hs]; exact At.succ_clust (by omega) hiend hc⟩
  · obtain ⟨rfl, hbrowsed, hlast, hs⟩ := he
    refine ⟨rfl, hbrowsed, hs, ?_, hlast⟩
    have hsucc : j / 16 + 1 = cs.length * g.spc := by
      have := Nat.mod_add_div (j / 16) g.spc
      rw [hlast, Nat.succ_mul, Nat.mul_comm]
      omega
    rw [places, ← hsucc]
    omega

/-! ## Alignment -/

theorem dirAdvance_succ (g : Geometry) (n : Nat) :
    dirAdvance g (n + 1) = (do dirAdvance g n; dirNext g) := by
  induction n with
  | zero =>
      show (dirNext g >>= fun _ => pure ()) = (pure () >>= fun _ => dirNext g)
      rw [bind_pure_unit, pure_bind]
  | succ n ih =>
      show (dirNext g >>= fun _ => dirAdvance g (n + 1)) =
        (dirNext g >>= fun _ => dirAdvance g n) >>= fun _ => dirNext g
      rw [ih, bind_assoc]

theorem dirAdvance_spec (hg : g.Laid) (ha : g.Aligned) (hv : DirOk g cs v)
    (hat : At g cs w.dir 0) (hn : n < places g cs) :
    Meets (dirAdvance g n) (v, w) (fun _ s => Browsed g cs v s.1 ∧ Moved g cs w s.2 n)
      fun _ _ => False := by
  induction n with
  | zero => exact ⟨.refl g cs v, ⟨w.dir, rfl⟩, rfl, rfl, hat⟩
  | succ n ih =>
      rw [dirAdvance_succ]
      refine (ih (by omega)).bind fun _ s hs => ?_
      obtain ⟨hbrowsed, hmoved⟩ := hs
      obtain ⟨u, x⟩ := s
      refine (dirNext_spec hg ha (hv.same hg.toRegular hbrowsed.toSame) hmoved.place).mono
        (fun _ s hs => ?_) fun _ _ he => ?_
      · exact ⟨hbrowsed.trans hs.1, hmoved.trans hs.2⟩
      · have := he.last
        omega

/-- Up to a sector that `dir_next` takes for the first one of a cluster. -/
theorem dirAdvance_inside (hg : g.Laid) (hcs : InData g cs) (hat : At g cs w.dir 0)
    (hlt : n / 16 < g.spc)
    (hin : ∀ i < n / 16, (w.dir.sect + i + 1) % g.spc ≠ 0) :
    Meets (dirAdvance g n) (v, w) (fun _ s => s.1 = v ∧ At g cs s.2.dir n)
      fun _ _ => False := by
  induction n with
  | zero => exact ⟨rfl, hat⟩
  | succ n ih =>
      rw [dirAdvance_succ]
      refine (ih (by omega) fun i hi => hin i (by omega)).bind fun _ s hs => ?_
      obtain ⟨u, x⟩ := s
      obtain ⟨rfl, hplace⟩ := hs
      refine (dirNext_inside hg hcs hplace fun hn => ?_).mono (fun _ s hs => ⟨hs.1, hs.2.place⟩)
        fun _ _ he => he
      dsimp only at hplace ⊢
      have hclust : x.dir.clust = w.dir.clust := by
        have h := hplace.clust
        rw [Nat.div_eq_of_lt (by omega), hat.clust_zero] at h
        exact (Option.some.inj h).symm
      have hsect : x.dir.sect = w.dir.sect + n / 16 := by
        rw [hplace.sect_eq, hat.sect_zero, hclust, Nat.mod_eq_of_lt (by omega)]
      rw [hsect, Nat.mod_eq_of_lt (by omega)]
      exact ⟨by omega, hin _ (by omega)⟩

/-- `dir_next` goes through all places of a directory in their order if and only if the volume
is aligned. -/
theorem dirAdvance_iff (hg : g.Laid) (hv : DirOk g cs v) (hat : At g cs w.dir 0) :
    (∀ n < places g cs, Meets (dirAdvance g n) (v, w) (fun _ s => At g cs s.2.dir n)
      fun _ _ => False) ↔ g.Aligned := by
  refine ⟨fun hall => ?_, fun ha n hn => (dirAdvance_spec hg ha hv hat hn).mono
    (fun _ _ hs => hs.2.place) fun _ _ he => he⟩
  by_contra ha
  have hne : g.dataSect % g.spc ≠ 0 := ha
  obtain ⟨h2, hc⟩ := hv.data _ hat.mem
  have hr := Nat.mod_lt g.dataSect g.spc_pos
  -- the first sector behind the start of the directory that is a multiple
  obtain ⟨k, hk⟩ : ∃ k, k + 1 + g.dataSect % g.spc = g.spc :=
    ⟨g.spc - g.dataSect % g.spc - 1, by omega⟩
  have hsect := hat.sect_zero
  rw [hg.clustToSect_eq h2 hc] at hsect
  have hmod : ∀ i, (w.dir.sect + i) % g.spc = (g.dataSect % g.spc + i) % g.spc := fun i => by
    rw [hsect, Nat.add_right_comm, Nat.add_mul_mod_self_right, Nat.mod_add_mod]
  have hlen := (List.getElem?_eq_some_iff.mp hat.clust_zero).1
  have hplaces : 16 * k + 16 < places g cs := by
    have hspc : g.spc ≤ cs.length * g.spc := Nat.le_mul_of_pos_left _ (by omega)
    rw [places]
    omega
  have hrun := hall (16 * k + 15 + 1) hplaces
  rw [dirAdvance_succ, meets_bind] at hrun
  have hstart := dirAdvance_inside (v := v) (n := 16 * k + 15) hg hv.data hat (by omega)
    fun i hi => by
      rw [Nat.add_assoc, hmod, Nat.mod_eq_of_lt (by omega)]
      omega
  obtain ⟨_, ⟨u, x⟩, heq, rfl, hplace⟩ := hstart.exists_ok
  have hnext := hrun.of_ok heq
  have hdiv : (16 * k + 15) / 16 = k := by omega
  have hclust : cs[0]? = some x.dir.clust := by
    have h := hplace.clust
    rwa [hdiv, Nat.div_eq_of_lt (by omega)] at h
  have hx : x.dir.sect = w.dir.sect + k := by
    rw [hplace.sect_eq, hdiv, hat.sect_zero, Nat.mod_eq_of_lt (by omega),
      Option.some.inj (hclust.symm.trans hat.clust_zero)]
  have hend : (x.dir.sect + 1) % g.spc = 0 := by
    rw [hx, Nat.add_assoc, hmod, Nat.add_comm, hk, Nat.mod_self]
  have hcross := dirNext_sect hplace.idx (by omega) (dirNextSect_cross hg hv
    (w := { x with dir := { x.dir with idx := 512 } }) hclust hend)
  obtain ⟨_, s, _, hat', _, c, hc', hs⟩ := ((hnext.and hcross).mono (fun _ _ h => h)
    fun _ _ h => h.1).exists_ok
  -- the handle is at the first sector of a cluster, and it should not be
  have hcs' := hv.data _ (List.mem_of_getElem? hc')
  have hplace' := hat'.sect
  have hdiv' : (16 * k + 15 + 1) / 16 = k + 1 := by omega
  rw [hs, hdiv', fileSect, Nat.div_eq_of_lt (by omega), Nat.mod_eq_of_lt (by omega),
    List.getD_eq_getElem?_getD, hat.clust_zero, Option.getD_some] at hplace'
  have hzero := (hg.clust_inj hcs'.1 hcs'.2 h2 hc g.spc_pos (by omega)
    ((Nat.add_zero _).trans hplace')).2
  omega

/-! ## A directory of the small volume -/

/-- The directory of the clusters 3 and 4. -/
def DirState.small : DirState where
  dir := { fat := true, sclust := 3, clust := 3, sect := 6, idx := 0 }
  buf := fun _ => 0
  len := 0
  crc := 0

theorem dirOk_small : DirOk .small [3, 4] .small where
  fit := Volume.fit_small
  chain := chains_small.apart.chain _ (by simp)
  data c hc := by
    simp only [List.mem_cons, List.not_mem_nil, or_false] at hc
    rcases hc with rfl | rfl <;> decide

theorem at_small : At .small [3, 4] DirState.small.dir 0 := ⟨by decide, by decide, rfl⟩

theorem dirAdvance_small : Geometry.small.Aligned ∧
    ∀ n < places .small [3, 4], Meets (dirAdvance .small n) (.small, .small)
      (fun _ s => At .small [3, 4] s.2.dir n) fun _ _ => False :=
  ⟨rfl, (dirAdvance_iff Geometry.laid_small dirOk_small at_small).mpr rfl⟩

end Demoos.Fat
