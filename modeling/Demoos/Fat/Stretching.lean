import Demoos.Fat.Walking

/-!
# Directories that grow

`dir_next_stretch` takes a new cluster for a directory behind its last place, and `clust_clear`
fills the cluster with zeros, so that it begins with the end of the directory.
-/

namespace Demoos.Fat

open Program
open Chains (Cell Chain Apart)
open Function (update update_self update_of_ne)

variable {g : Geometry} {v u t : Volume} {w w' : DirState} {d : Dir} {cs cs' cs'' : List Nat}
  {c i j k n s : Nat}

/-! ## `clust_clear` -/

/-- The sectors are filled with zeros, and the buffer has the last one of them. -/
structure Cleared (s n : Nat) (v t : Volume) : Prop where
  quiet : t.Quiet
  whole : t.Whole
  clean : t.disk.dirty = false
  value : t.disk.value = fun _ => 0
  store : ∀ x, t.disk.store x = if s ≤ x ∧ x < s + n then fun _ => 0 else v.disk.store x
  key : t.disk.key = if n = 0 then v.disk.key else s + n - 1
  stale : t.stale = v.stale
  infoDirty : t.infoDirty = v.infoDirty
  lastUsed : t.lastUsed = v.lastUsed
  freeCnt : t.freeCnt = v.freeCnt

theorem clearSects_spec (hq : v.Quiet) (hw : v.Whole) (hclean : v.disk.dirty = false)
    (hzero : v.disk.value = fun _ => 0) (hend : s + n ≤ 2 ^ 32) :
    Meets (clearSects n s) v (fun _ t => Cleared s n v t) fun _ _ => False := by
  induction n generalizing v s with
  | zero =>
      refine ⟨hq, hw, hclean, hzero, fun x => ?_, rfl, rfl, rfl, rfl, rfl⟩
      rw [if_neg (by omega)]
  | succ n ih =>
      rw [clearSects, meets_bind, meets_modify, meets_bind]
      generalize hu : ({ v with disk.dirty := true, disk.key := s } : Volume) = u
      have husound : u.Sound := by
        subst hu
        exact ⟨fun h => (by cases h), hw⟩
      have huquiet : u.Quiet := by
        subst hu
        exact hq
      refine (syncBuf_spec u).mono (fun _ t ht => ?_) fun _ _ he => he.unquiet huquiet
      obtain ⟨hsame, hclean', hkey, hvalue⟩ := ht
      have hstore : t.disk.store = update v.disk.store s fun _ => 0 := by
        have hview := hsame.view_eq
        rw [Volume.view, Volume.view, WriteBack.Cache.view_of_clean hclean'] at hview
        rw [hview, ← hu, WriteBack.Cache.view_of_dirty rfl]
        exact congrArg _ hzero
      have hkey' : t.disk.key = s := by rw [hkey, ← hu]
      have hzero' : t.disk.value = fun _ => 0 := by rw [hvalue, ← hu]; exact hzero
      have hq' := hsame.quiet huquiet
      have hw' := (hsame.sound husound).whole
      have hnext : Meets (clearSects n ((s + 1) % 2 ^ 32)) t
          (fun _ t' => Cleared (s + 1) n t t') fun _ _ => False := by
        rcases Nat.eq_zero_or_pos n with rfl | hn
        · refine ⟨hq', hw', hclean', hzero', fun x => ?_, rfl, rfl, rfl, rfl, rfl⟩
          rw [if_neg (by omega)]
        · rw [Nat.mod_eq_of_lt (by omega)]
          exact ih hq' hw' hclean' hzero' (by omega)
      refine hnext.mono (fun _ t' ht' => ?_) fun _ _ he => he
      refine ⟨ht'.quiet, ht'.whole, ht'.clean, ht'.value, fun x => ?_, ?_,
        ht'.stale.trans (hsame.stale.trans (by rw [← hu])),
        ht'.infoDirty.trans (hsame.infoDirty.trans (by rw [← hu])),
        ht'.lastUsed.trans (hsame.lastUsed.trans (by rw [← hu])),
        ht'.freeCnt.trans (hsame.freeCnt.trans (by rw [← hu]))⟩
      · rw [ht'.store, hstore]
        by_cases hx : x = s
        · rw [hx, if_neg (by omega), update_self, if_pos (by omega)]
        · rw [update_of_ne hx]
          by_cases hin : s + 1 ≤ x ∧ x < s + 1 + n
          · rw [if_pos hin, if_pos (by omega)]
          · rw [if_neg hin, if_neg (by omega)]
      · have hkeys := ht'.key
        split at hkeys
        next hn => rw [if_neg (Nat.succ_ne_zero n), hkeys, hkey', hn]; rfl
        next hn => rw [if_neg (Nat.succ_ne_zero n), hkeys]; omega

/-- A cluster of zeros. -/
structure Emptied (g : Geometry) (c : Nat) (v t : Volume) : Prop extends v.Onward t where
  view_eq : ∀ s, (∀ k < g.spc, s ≠ clustToSect g c + k) → t.view s = v.view s
  zero : ∀ k < g.spc, t.view (clustToSect g c + k) = fun _ => 0
  key : ∃ k < g.spc, t.disk.key = clustToSect g c + k
  infoDirty : t.infoDirty = v.infoDirty
  lastUsed : t.lastUsed = v.lastUsed
  freeCnt : t.freeCnt = v.freeCnt

/-- `clust_clear` -/
theorem clustClear_spec (hg : g.Laid) (hv : Fit g v) (h2 : 2 ≤ c) (hc : c < g.clustCnt) :
    Meets (clustClear g c) v (fun _ t => Emptied g c v t) fun _ _ => False := by
  have hend : clustToSect g c + g.spc ≤ 2 ^ 32 := by
    rw [hg.clustToSect_eq h2 hc]
    exact hg.clust_end h2 hc
  have hpos := g.spc_pos
  have hne : g.spc ≠ 0 := hpos.ne'
  rw [clustClear, meets_bind]
  refine (syncBuf_spec v).mono (fun _ u hu => ?_) fun _ _ he => he.unquiet hv.quiet
  obtain ⟨hsame, hclean, _, _⟩ := hu
  rw [meets_bind, meets_modify]
  have hstore : u.disk.store = v.view := by
    rw [← hsame.view_eq, Volume.view, WriteBack.Cache.view_of_clean hclean]
  refine (clearSects_spec (v := { u with disk.value := fun _ => 0 }) (hsame.quiet hv.quiet)
    (hsame.sound hv.sound).whole hclean rfl hend).mono (fun _ t ht => ?_) fun _ _ he => he
  have hview : t.view = t.disk.store := WriteBack.Cache.view_of_clean ht.clean
  have hkey : t.disk.key = clustToSect g c + (g.spc - 1) := by
    rw [ht.key]
    show (if g.spc = 0 then _ else clustToSect g c + g.spc - 1) = _
    rw [if_neg hne, Nat.add_sub_assoc hpos]
  have hget : ∀ s, t.view s =
      if clustToSect g c ≤ s ∧ s < clustToSect g c + g.spc then fun _ => 0 else v.view s :=
    fun s => by
      rw [hview, ht.store]
      show (if _ then _ else u.disk.store s) = _
      rw [hstore]
  refine ⟨⟨fun _ => ht.quiet, fun _ => ⟨fun _ _ => ?_, ht.whole⟩, ht.stale.trans hsame.stale⟩,
    fun s hs => ?_, fun k hk => ?_, ⟨g.spc - 1, by omega, hkey⟩, ht.infoDirty.trans hsame.infoDirty,
    ht.lastUsed.trans hsame.lastUsed, ht.freeCnt.trans hsame.freeCnt⟩
  · rw [ht.value, ← hview, hkey, hget, if_pos (by omega)]
  · rw [hget, if_neg]
    rintro ⟨hle, hlt⟩
    exact hs (s - clustToSect g c) (by omega) (by omega)
  · rw [hget, if_pos (by omega)]

/-! ## What calls leave to the rest of the volume -/

/-- The chain of the directory may have grown, and nothing else has changed but its sectors. -/
structure Tended (g : Geometry) (cs : List Nat) (v : Volume) (cs' : List Nat) (t : Volume) : Prop
    extends v.Onward t where
  ok : DirOk g cs' t
  pre : cs <+: cs'
  apart : ∀ rest, Apart (v.cells g) (cs :: rest) → Apart (t.cells g) (cs' :: rest)
  count : (t.free g).card + cs'.length = (v.free g).card + cs.length
  view_eq : ∀ s, ¬ g.Low s → (∀ i < cs'.length * g.spc, s ≠ fileSect g cs' i) →
    t.view s = v.view s
  place : t.disk.key = v.disk.key ∨ g.Low t.disk.key ∨
    ∃ i < cs'.length * g.spc, t.disk.key = fileSect g cs' i

theorem sectors_mono (h : cs <+: cs') : cs.length * g.spc ≤ cs'.length * g.spc :=
  Nat.mul_le_mul_right _ h.length_le

theorem places_mono (h : cs <+: cs') : places g cs ≤ places g cs' :=
  Nat.mul_le_mul_right _ (sectors_mono h)

theorem Tended.refl (hv : DirOk g cs v) : Tended g cs v cs v :=
  ⟨.refl v, hv, List.prefix_rfl, fun _ h => h, rfl, fun _ _ _ => rfl, .inl rfl⟩

theorem Tended.trans (h : Tended g cs v cs' u) (h' : Tended g cs' u cs'' t) :
    Tended g cs v cs'' t where
  toOnward := h.toOnward.trans h'.toOnward
  ok := h'.ok
  pre := h.pre.trans h'.pre
  apart rest hr := h'.apart rest (h.apart rest hr)
  count := h'.count.trans h.count
  view_eq s hlow hs := by
    rw [h'.view_eq s hlow hs, h.view_eq s hlow fun i hi => ?_]
    rw [← fileSect_of_pre h'.pre hi]
    exact hs i (Nat.lt_of_lt_of_le hi (sectors_mono h'.pre))
  place := by
    rcases h'.place with heq | hplace
    · rw [heq]
      rcases h.place with heq | hlow | ⟨i, hi, hkey⟩
      · exact .inl heq
      · exact .inr (.inl hlow)
      · exact .inr (.inr ⟨i, Nat.lt_of_lt_of_le hi (sectors_mono h'.pre),
          hkey.trans (fileSect_of_pre h'.pre hi).symm⟩)
    · exact .inr hplace

theorem Browsed.tended (h : Browsed g cs v t) (hg : g.Laid) (hv : DirOk g cs v) :
    Tended g cs v cs t where
  toOnward := h.toOnward
  ok := hv.same hg.toRegular h.toSame
  pre := List.prefix_rfl
  apart _ hr := by rwa [cells_congr h.view_eq]
  count := by rw [free_congr (cells_congr h.view_eq)]
  view_eq s _ _ := congrFun h.view_eq s
  place := h.place

/-- The places that there were are what they were, and the new ones have zeros. -/
structure Lengthened (g : Geometry) (cs : List Nat) (v : Volume) (cs' : List Nat) (t : Volume) :
    Prop extends Tended g cs v cs' t where
  slot_eq : ∀ j < places g cs, slot g cs' t j = slot g cs v j
  zero : ∀ j, places g cs ≤ j → j < places g cs' → slot g cs' t j = fun _ => 0

theorem Browsed.lengthened (h : Browsed g cs v t) (hg : g.Laid) (hv : DirOk g cs v) :
    Lengthened g cs v cs t :=
  ⟨h.tended hg hv, fun _ _ => slot_congr h.view_eq, fun j hle hlt => absurd hlt (by omega)⟩

theorem Lengthened.trans (h : Lengthened g cs v cs' u) (h' : Lengthened g cs' u cs'' t) :
    Lengthened g cs v cs'' t where
  toTended := h.toTended.trans h'.toTended
  slot_eq j hj := by
    rw [h'.slot_eq j (Nat.lt_of_lt_of_le hj (places_mono h.pre)), h.slot_eq j hj]
  zero j hle hlt := by
    rcases Nat.lt_or_ge j (places g cs') with hj | hj
    · rw [h'.slot_eq j hj, h.zero j hle hj]
    · exact h'.zero j hj hlt

/-! ## `dir_next_stretch` -/

theorem fileSect_concat (cs : List Nat) (hi : i < g.spc) :
    fileSect g (cs ++ [c]) (cs.length * g.spc + i) = clustToSect g c + i := by
  have hdiv : (cs.length * g.spc + i) / g.spc = cs.length := by
    rw [Nat.mul_comm, Nat.mul_add_div g.spc_pos, Nat.div_eq_of_lt hi, Nat.add_zero]
  have hmod : (cs.length * g.spc + i) % g.spc = i := by
    rw [Nat.mul_comm, Nat.mul_add_mod, Nat.mod_eq_of_lt hi]
  rw [fileSect, hdiv, hmod, List.getD_append_right _ _ _ _ (Nat.le_refl _), Nat.sub_self]
  rfl

/-- A new cluster behind the end, with zeros in it. -/
theorem Grown.lengthened (hg : g.Laid) (hv : DirOk g cs v) (h : Grown g cs v (cs ++ [c]) u)
    (he : Emptied g c u t) : Lengthened g cs v (cs ++ [c]) t := by
  have hc := h.data c (by simp)
  have hreg := hg.toRegular
  have hlow : ∀ s, g.Low s → t.view s = u.view s := fun s hs =>
    he.view_eq s fun k _ hk => hg.not_low hc.1 hc.2 (hk ▸ hs)
  have hcells : t.cells g = u.cells g := cells_of_tables hreg fun s hs => hlow s (.inl hs)
  have hlen : (cs ++ [c]).length * g.spc = cs.length * g.spc + g.spc := by
    rw [List.length_append, List.length_singleton, Nat.succ_mul]
  have hold : ∀ i < cs.length * g.spc, ∀ k < g.spc, fileSect g (cs ++ [c]) i ≠ clustToSect g c + k :=
    fun i hi k hk heq => by
      rw [← fileSect_concat cs hk] at heq
      have := fileSect_inj hg h.data h.chain.nodup (by omega) (by omega) heq
      omega
  refine ⟨⟨h.toOnward.trans he.toOnward, ⟨?_, ?_, h.data⟩, h.pre, fun rest hr => ?_,
    by rw [free_congr hcells, h.count], fun s hs hne => ?_, ?_⟩, fun j hj => ?_,
    fun j hle hlt => ?_⟩
  · exact h.fit.of_tables hreg he.toOnward (fun s hs => hlow s (.inl hs)) he.lastUsed
  · rw [hcells]
    exact h.chain
  · rw [hcells]
    exact h.apart rest hr
  · rw [he.view_eq s fun k hk => ?_, h.view_eq s hs]
    rw [← fileSect_concat cs hk]
    exact hne _ (by omega)
  · obtain ⟨k, hk, hkey⟩ := he.key
    exact .inr (.inr ⟨cs.length * g.spc + k, by omega, by rw [hkey, fileSect_concat cs hk]⟩)
  · have hi := lt_places_iff.mp hj
    have hsect := fileSect_of_pre (g := g) (List.prefix_append cs [c]) hi
    have hnot := not_low_fileSect hg hv.data hi
    rw [slot, slot, he.view_eq _ (hold _ hi), hsect, h.view_eq _ hnot]
  · have hi := lt_places_iff.mp hlt
    have hge : cs.length * g.spc ≤ j / 16 := by
      rw [places] at hle
      omega
    obtain ⟨k, hk⟩ := Nat.exists_eq_add_of_le hge
    rw [slot, hk, fileSect_concat cs (by omega), he.zero k (by omega)]
    funext b
    simp only [entryAt]
    exact ite_self _

/-- A volume that is full is left as it was. -/
theorem Unmoved.lengthened (h : Unmoved g v t) (hv : DirOk g cs v) :
    Lengthened g cs v cs t := by
  have hcells := cells_congr (g := g) h.view_eq'
  refine ⟨⟨h.toOnward, ⟨h.fit, by rw [hcells]; exact hv.chain, hv.data⟩, List.prefix_rfl,
    fun _ hr => by rwa [hcells], by rw [free_congr hcells], fun s _ _ => congrFun h.view_eq' s,
    h.keyed.imp_right .inl⟩,
    fun _ _ => slot_congr h.view_eq', fun j hle hlt => absurd hlt (by omega)⟩

theorem exists_concat {a : Nat} (h : cs[k]? = some a) (hlen : cs.length = k + 1) :
    ∃ ds, cs = ds ++ [a] := by
  rcases List.eq_nil_or_concat cs with rfl | ⟨ds, b, rfl⟩
  · cases h
  · rw [List.concat_eq_append] at h hlen ⊢
    have hk : k = ds.length := by simpa using hlen.symm
    rw [hk, List.getElem?_append_right (Nat.le_refl _), Nat.sub_self] at h
    exact ⟨ds, by rw [Option.some.inj h]⟩

theorem places_concat (g : Geometry) (cs : List Nat) (c : Nat) :
    places g (cs ++ [c]) = places g cs + g.spc * 16 := by
  rw [places, places, List.length_append, List.length_singleton, Nat.add_mul, Nat.add_mul,
    Nat.one_mul]

/-- The first place of a new cluster. -/
theorem at_places (d : Dir) : At g (cs ++ [c])
    { d with clust := c, sect := clustToSect g c, idx := 0 } (places g cs) := by
  have hdiv : places g cs / 16 = cs.length * g.spc := Nat.mul_div_cancel _ (by omega)
  refine ⟨?_, ?_, ?_⟩
  · rw [hdiv, Nat.mul_div_cancel _ g.spc_pos, List.getElem?_append_right (Nat.le_refl _),
      Nat.sub_self]
    rfl
  · have hsect := fileSect_concat (c := c) cs g.spc_pos
    rw [Nat.add_zero, Nat.add_zero] at hsect
    rw [hdiv, hsect]
  · rw [places, Nat.mul_mod_left]

/-- `dir_next_stretch` goes to the next place, in a new cluster if need be. -/
theorem dirNextStretch_spec (hg : g.Laid) (ha : g.Aligned) (hv : DirOk g cs v)
    (hat : At g cs w.dir j) (hn : 2 * g.clustCnt < n) (out : Nat) :
    Meets (dirNextStretch g n out) (v, w)
      (fun _ s => ∃ cs', Lengthened g cs v cs' s.1 ∧ Moved g cs' w s.2 (j + 1) ∧
        places g cs' ≤ max (places g cs) (j + 1 + g.spc * 16))
      fun e s => e = .error .full ∧ Lengthened g cs v cs s.1 ∧
        s.2.dir.sclust = w.dir.sclust ∧ (s.1.free g).card ≤ 1 ∧ places g cs = j + 1 := by
  rw [dirNextStretch, meets_bind, meets_attempt]
  refine (dirNext_spec hg ha hv hat).mono (fun _ s hs => ?_) fun e s he => ?_
  · exact ⟨cs, hs.1.lengthened hg hv, hs.2, Nat.le_max_left _ _⟩
  obtain ⟨u, x⟩ := s
  obtain ⟨rfl, hbrowsed, hx, hlast, hlen⟩ := he
  refine ⟨fun e he => ?_, fun h => by cases h⟩
  obtain rfl := Stop.error.inj he
  dsimp only at hbrowsed hx ⊢
  obtain ⟨ds, hds⟩ := exists_concat hat.clust hlen
  have hu := hv.same hg.toRegular hbrowsed.toSame
  have hclust : x.dir.clust = w.dir.clust := by rw [hx]
  rw [if_pos rfl, meets_bind, meets_getDir, meets_bind, meets_onFst]
  dsimp only
  rw [hclust]
  refine (stretchChain_fit hg hu.fit (hds ▸ hu.chain) (hds ▸ hu.data) hn out).mono
    (fun c t ht => ?_) fun e t he => ?_
  · rw [← hds] at ht
    have hc := ht.data c (by simp)
    rw [meets_bind, dirAtClust, meets_setDir, meets_onFst]
    refine (clustClear_spec hg ht.fit hc.1 hc.2).mono (fun _ t' ht' => ?_) fun _ _ he => he.elim
    refine ⟨cs ++ [c], (hbrowsed.lengthened hg hv).trans (ht.lengthened hg hu ht'),
      ⟨⟨{ x.dir with clust := c, sect := clustToSect g c, idx := 0 }, by rw [hx]⟩, by rw [hx],
        by rw [hx], ?_⟩, ?_⟩
    · rw [hlast]
      exact at_places x.dir
    · rw [places_concat, ← hlast]
      exact Nat.le_max_right _ _
  · obtain ⟨rfl, hfree, hsame⟩ := he
    exact ⟨rfl, (hbrowsed.lengthened hg hv).trans (hsame.lengthened hu), by rw [hx], hfree,
      hlast.symm⟩

end Demoos.Fat
