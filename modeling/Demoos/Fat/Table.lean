import Demoos.Fat.Buffer

/-!
# The table of clusters

An entry of the table is read and written through the sector buffer.  In a regular volume the
copies of the table lie apart from each other, so that a cluster has its own entry in each.
Storing an entry changes its low 28 bits in every copy, the mirror first, and not a bit
elsewhere.
-/

namespace Demoos.Fat

open Program
open Function (update update_self update_of_ne)

namespace Geometry

/-- The sectors of one copy of the table. -/
def fatLen (g : Geometry) : Nat := (g.clustCnt + 127) / 128

/-- The copies of the table, in the order in which `put_fat` writes them. -/
def tables (g : Geometry) : List Nat :=
  if g.fatSect1 ≠ 0 then [g.fatSect1, g.fatSect0] else [g.fatSect0]

/-- A sector of some copy of the table. -/
def InTables (g : Geometry) (sect : Nat) : Prop :=
  ∃ fs ∈ g.tables, fs ≤ sect ∧ sect < fs + g.fatLen

/-- The copies of the table lie apart, within the medium and behind the first sector. -/
structure Regular (g : Geometry) : Prop where
  fat0_pos : 0 < g.fatSect0
  fat0_end : g.fatSect0 + g.fatLen ≤ 2 ^ 32
  fat1_end : g.fatSect1 ≠ 0 → g.fatSect1 + g.fatLen ≤ 2 ^ 32
  apart : g.fatSect1 ≠ 0 →
    g.fatSect0 + g.fatLen ≤ g.fatSect1 ∨ g.fatSect1 + g.fatLen ≤ g.fatSect0
  info_pos : 0 < g.infoSect
  info_apart : ¬ g.InTables g.infoSect
  clustCnt_pos : 2 < g.clustCnt
  clustCnt_le : g.clustCnt ≤ 0x0ffffff7

variable {g : Geometry}

theorem tables_ne_nil : g.tables ≠ [] := by
  rw [tables]
  split <;> simp

theorem fat0_mem_tables : g.fatSect0 ∈ g.tables := by
  rw [tables]
  split <;> simp

theorem mem_tables {fs : Nat} (h : fs ∈ g.tables) :
    fs = g.fatSect0 ∨ fs = g.fatSect1 ∧ g.fatSect1 ≠ 0 := by
  rw [tables] at h
  split at h
  next hm => simp only [List.mem_cons, List.not_mem_nil, or_false] at h; tauto
  next => exact .inl (List.mem_singleton.mp h)

theorem Regular.table_bounds (h : g.Regular) {fs : Nat} (hfs : fs ∈ g.tables) :
    0 < fs ∧ fs + g.fatLen ≤ 2 ^ 32 := by
  rcases mem_tables hfs with rfl | ⟨rfl, hm⟩
  · exact ⟨h.fat0_pos, h.fat0_end⟩
  · exact ⟨Nat.pos_of_ne_zero hm, h.fat1_end hm⟩

/-- The tables are apart from each other. -/
theorem Regular.tables_apart (h : g.Regular) {fs fs' : Nat} (hfs : fs ∈ g.tables)
    (hfs' : fs' ∈ g.tables) (hne : fs ≠ fs') : fs + g.fatLen ≤ fs' ∨ fs' + g.fatLen ≤ fs := by
  rcases mem_tables hfs with rfl | ⟨rfl, hm⟩ <;> rcases mem_tables hfs' with rfl | ⟨rfl, hm'⟩
  · exact absurd rfl hne
  · exact h.apart hm'
  · exact (h.apart hm).symm
  · exact absurd rfl hne

theorem div_lt_fatLen {c : Nat} (hc : c < g.clustCnt) : c / 128 < g.fatLen := by
  rw [fatLen]
  omega

theorem Regular.itemSect_eq (h : g.Regular) {fs c : Nat} (hfs : fs ∈ g.tables)
    (hc : c < g.clustCnt) : itemSect fs c = fs + c / 128 := by
  have hb := h.table_bounds hfs
  have hd := div_lt_fatLen hc
  rw [itemSect, Nat.mod_eq_of_lt (by omega)]

theorem Regular.itemSect_ne_zero (h : g.Regular) {fs c : Nat} (hfs : fs ∈ g.tables)
    (hc : c < g.clustCnt) : itemSect fs c ≠ 0 := by
  have hb := h.table_bounds hfs
  rw [h.itemSect_eq hfs hc]
  omega

theorem Regular.inTables_itemSect (h : g.Regular) {fs c : Nat} (hfs : fs ∈ g.tables)
    (hc : c < g.clustCnt) : g.InTables (itemSect fs c) := by
  rw [h.itemSect_eq hfs hc]
  exact ⟨fs, hfs, by omega, Nat.add_lt_add_left (div_lt_fatLen hc) fs⟩

/-- Entries that share a sector are in the same copy. -/
theorem Regular.eq_of_itemSect_eq (h : g.Regular) {fs fs' c c' : Nat} (hfs : fs ∈ g.tables)
    (hfs' : fs' ∈ g.tables) (hc : c < g.clustCnt) (hc' : c' < g.clustCnt)
    (he : itemSect fs c = itemSect fs' c') : fs = fs' ∧ c / 128 = c' / 128 := by
  rw [h.itemSect_eq hfs hc, h.itemSect_eq hfs' hc'] at he
  have hd := div_lt_fatLen hc
  have hd' := div_lt_fatLen hc'
  by_cases hne : fs = fs'
  · exact ⟨hne, by omega⟩
  · have := h.tables_apart hfs hfs' hne
    omega

/-- A sector that the buffer is used for in the care of the table. -/
def Low (g : Geometry) (sect : Nat) : Prop := g.InTables sect ∨ sect = g.infoSect

end Geometry

namespace Volume

/-- The buffer is where it was, or in the care of the table. -/
def Keyed (g : Geometry) (v t : Volume) : Prop := t.disk.key = v.disk.key ∨ g.Low t.disk.key

/-- Nothing that matters has changed, and the buffer is where it was or has part of the
table. -/
structure Looked (g : Geometry) (v t : Volume) : Prop extends v.Same t where
  keyed : Keyed g v t

variable {g : Geometry} {v u t : Volume}

theorem Keyed.trans (h : Keyed g v u) (h' : Keyed g u t) : Keyed g v t := by
  rcases h' with h' | h'
  · rw [Keyed, h']
    exact h
  · exact .inr h'

theorem Looked.refl (g : Geometry) (v : Volume) : Looked g v v := ⟨.refl v, .inl rfl⟩

theorem Looked.trans (h : Looked g v u) (h' : Looked g u t) : Looked g v t :=
  ⟨h.toSame.trans h'.toSame, h.keyed.trans h'.keyed⟩

end Volume

theorem Refused.looked {g : Geometry} {v t : Volume} {e : Stop FatError} (h : Refused v e t) :
    Volume.Looked g v t := ⟨h.same, .inl h.key⟩

/-! ## Entries -/

/-- The entry that remains when `val` is stored: its upper nibble, and the low bits of `val`. -/
def splice (item val : Nat) : Nat := item / 2 ^ 28 * 2 ^ 28 + val % 2 ^ 28

theorem splice_mod (item val : Nat) : splice item val % 2 ^ 28 = val % 2 ^ 28 := by
  rw [splice]
  omega

theorem splice_splice (item val : Nat) : splice (splice item val) val = splice item val := by
  simp only [splice]
  omega

theorem and_mask (x : Nat) : x &&& 0x0fffffff = x % 2 ^ 28 := Nat.and_two_pow_sub_one_eq_mod x 28

theorem and_nibble {x : Nat} (hx : x < 2 ^ 32) : x &&& 0xf0000000 = x / 2 ^ 28 * 2 ^ 28 := by
  apply Nat.eq_of_testBit_eq
  intro i
  have hmask : 0xf0000000 = (2 ^ 4 - 1) <<< 28 := by decide
  rw [hmask, Nat.testBit_and, Nat.testBit_shiftLeft, Nat.testBit_two_pow_sub_one,
    Nat.testBit_mul_two_pow, Nat.testBit_div_two_pow]
  by_cases hi : 28 ≤ i
  · have hcancel : i - 28 + 28 = i := by omega
    simp only [hi, decide_true, Bool.true_and, hcancel]
    by_cases h4 : i - 28 < 4
    · simp [h4]
    · have hlt : x < 2 ^ i := lt_of_lt_of_le hx (Nat.pow_le_pow_right (by omega) (by omega))
      simp [h4, Nat.testBit_lt_two_pow hlt]
  · simp [hi]

theorem itemAt_lt (buf : Sector) (c : Nat) : itemAt buf c < 2 ^ 32 := Bytes.read_lt

theorem itemAt_putItem (buf : Sector) (c val : Nat) :
    itemAt (putItem c val buf) c = splice (itemAt buf c) val := by
  have hlow : val % 2 ^ 28 < 2 ^ 28 := Nat.mod_lt _ (by omega)
  have hval : (itemAt buf c &&& 0xf0000000) ||| (val &&& 0x0fffffff) =
      splice (itemAt buf c) val := by
    rw [and_nibble (itemAt_lt buf c), and_mask, splice, Nat.mul_comm]
    exact (Nat.two_pow_add_eq_or_of_lt hlow _).symm
  have hlt := itemAt_lt buf c
  rw [putItem, hval, itemAt]
  refine Bytes.read_write ?_
  rw [splice]
  omega

theorem itemAt_putItem_other (buf : Sector) {c c' : Nat} (h : c' % 128 ≠ c % 128) (val : Nat) :
    itemAt (putItem c val buf) c' = itemAt buf c' :=
  Bytes.read_write_of_disjoint (by omega)

/-- The entry of a cluster in the copy of the table at `fatSect`. -/
def Volume.item (v : Volume) (fatSect c : Nat) : Nat := itemAt (v.view (itemSect fatSect c)) c

/-- What `get_fat` reads of the entry. -/
def Volume.entry (g : Geometry) (v : Volume) (c : Nat) : Nat := v.item g.fatSect0 c % 2 ^ 28

/-- `get_fat` reads the entry of the active copy. -/
theorem getFat_spec (g : Geometry) {v : Volume} {c : Nat} (hs : v.Sound)
    (hne : itemSect g.fatSect0 c ≠ 0) :
    Meets (getFat g c) v
      (fun r t => v.Same t ∧ t.disk.key = itemSect g.fatSect0 c ∧ r.1 = v.entry g c ∧
        clustFlags g (v.entry g c) = some r.2)
      fun e t => Refused v e t ∨
        e = .error .broken ∧ v.Same t ∧ t.disk.key = itemSect g.fatSect0 c ∧
          clustFlags g (v.entry g c) = none := by
  rw [getFat]
  refine ((updateBuf_spec v _).mono (fun _ _ h => h) fun _ _ he => .inl he).bind fun _ u hu => ?_
  obtain ⟨hsame, hkey, hvalue⟩ := hu
  have hentry : itemAt u.disk.value c &&& 0x0fffffff = v.entry g c := by
    rw [hvalue hs hne, and_mask]
    rfl
  simp only [meets_bind, meets_get, hentry]
  split
  next flags hf => exact ⟨hsame, hkey, rfl, hf⟩
  next hf => exact .inr ⟨rfl, hsame, hkey, hf⟩

/-- The entry of `c` has changed in the copies `ts` of the table, and nothing else that
matters. -/
structure Put (g : Geometry) (ts : List Nat) (v : Volume) (c val : Nat) (t : Volume) : Prop
    extends v.Onward t where
  item_eq : ∀ fs ∈ g.tables, ∀ c' < g.clustCnt,
    t.item fs c' = if fs ∈ ts ∧ c' = c then splice (v.item fs c) val else v.item fs c'
  view_eq : ∀ s, ¬ g.InTables s → t.view s = v.view s
  keyed : Volume.Keyed g v t
  low : ts ≠ [] → g.Low t.disk.key
  infoDirty : t.infoDirty = v.infoDirty
  lastUsed : t.lastUsed = v.lastUsed
  freeCnt : t.freeCnt = v.freeCnt

namespace Put

variable {g : Geometry} {ts ts' : List Nat} {v u t : Volume} {c val : Nat}

theorem of_looked (h : Volume.Looked g v t) : Put g [] v c val t where
  toOnward := h.toOnward
  item_eq fs _ c' _ := by simp [Volume.item, h.view_eq]
  view_eq s _ := by rw [h.view_eq]
  keyed := h.keyed
  low hne := absurd rfl hne
  infoDirty := h.infoDirty
  lastUsed := h.lastUsed
  freeCnt := h.freeCnt

/-- Storing the entry in one copy. -/
theorem of_edited (hg : g.Regular) {fs : Nat} (hfs : fs ∈ g.tables) (hc : c < g.clustCnt)
    (h : Edited v (itemSect fs c) (putItem c val) t) (hkey : t.disk.key = itemSect fs c) :
    Put g [fs] v c val t where
  toOnward := h.toOnward
  item_eq fs' hfs' c' hc' := by
    simp only [List.mem_singleton, Volume.item, h.view_eq]
    by_cases hsect : itemSect fs' c' = itemSect fs c
    · obtain ⟨rfl, hdiv⟩ := hg.eq_of_itemSect_eq hfs' hfs hc' hc hsect
      rw [hsect, update_self]
      by_cases hmod : c' % 128 = c % 128
      · have hcc : c' = c := by omega
        rw [if_pos ⟨rfl, hcc⟩, hcc, itemAt_putItem]
      · have hcc : c' ≠ c := fun he => hmod (by rw [he])
        rw [if_neg fun h => hcc h.2, itemAt_putItem_other _ hmod]
    · rw [update_of_ne hsect, if_neg fun h => hsect (by rw [h.1, h.2])]
  view_eq s hs := by
    rw [h.view_eq, update_of_ne]
    rintro rfl
    exact hs (hg.inTables_itemSect hfs hc)
  keyed := .inr (.inl (hkey ▸ hg.inTables_itemSect hfs hc))
  low _ := .inl (hkey ▸ hg.inTables_itemSect hfs hc)
  infoDirty := h.infoDirty
  lastUsed := h.lastUsed
  freeCnt := h.freeCnt

theorem trans (h : Put g ts v c val u) (h' : Put g ts' u c val t) (hc : c < g.clustCnt) :
    Put g (ts ++ ts') v c val t where
  toOnward := h.toOnward.trans h'.toOnward
  item_eq fs hfs c' hc' := by
    rw [h'.item_eq fs hfs c' hc', h.item_eq fs hfs c' hc', h.item_eq fs hfs c hc]
    by_cases hcc : c' = c
    · by_cases hin : fs ∈ ts <;> by_cases hin' : fs ∈ ts' <;>
        simp [hin, hin', hcc, splice_splice]
    · simp [hcc]
  view_eq s hs := (h'.view_eq s hs).trans (h.view_eq s hs)
  keyed := h.keyed.trans h'.keyed
  low hne := by
    by_cases hts : ts' = []
    · rcases h'.keyed with heq | hlow
      · rw [heq]
        exact h.low fun he => hne (by rw [he, hts]; rfl)
      · exact hlow
    · exact h'.low hts
  infoDirty := h'.infoDirty.trans h.infoDirty
  lastUsed := h'.lastUsed.trans h.lastUsed
  freeCnt := h'.freeCnt.trans h.freeCnt

/-- What `get_fat` reads afterwards. -/
theorem entry_eq (h : Put g ts v c val t) {c' : Nat} (hc' : c' < g.clustCnt) :
    t.entry g c' = if g.fatSect0 ∈ ts ∧ c' = c then val % 2 ^ 28 else v.entry g c' := by
  rw [Volume.entry, h.item_eq _ Geometry.fat0_mem_tables c' hc']
  split
  next => exact splice_mod _ _
  next => rfl

end Put

theorem putFat2_spec {g : Geometry} {v : Volume} {fs c : Nat} (hg : g.Regular) (hs : v.Sound)
    (hfs : fs ∈ g.tables) (hc : c < g.clustCnt) (val : Nat) :
    Meets (putFat2 fs c val) v (fun _ t => Put g [fs] v c val t) (Refused v) :=
  (updateBuf_edit_spec (putItem c val) hs (hg.itemSect_ne_zero hfs hc)).mono
    (fun _ _ h => .of_edited hg hfs hc h.1 h.2.2) fun _ _ he => he

/-- `put_fat` stores the entry in every copy.  If it fails, the active copy is as before. -/
theorem putFat_spec {g : Geometry} {v : Volume} {c : Nat} (hg : g.Regular) (hs : v.Sound)
    (hc : c < g.clustCnt) (val : Nat) :
    Meets (putFat g c val) v (fun _ t => Put g g.tables v c val t)
      fun e t => e = .error .io ∧ ¬ v.Quiet ∧ ∃ ts, g.fatSect0 ∉ ts ∧ Put g ts v c val t := by
  rw [putFat, meets_bind]
  have hfirst : ∀ {u : Volume} {ts : List Nat}, Put g ts v c val u → g.fatSect0 ∉ ts →
      Meets (putFat2 g.fatSect0 c val) u (fun _ t => Put g (ts ++ [g.fatSect0]) v c val t)
        fun e t => e = .error .io ∧ ¬ v.Quiet ∧ ∃ ts, g.fatSect0 ∉ ts ∧ Put g ts v c val t := by
    intro u ts hu hts
    refine (putFat2_spec hg (hu.sound hs) Geometry.fat0_mem_tables hc val).mono
      (fun _ t ht => hu.trans ht hc) fun e t he => ?_
    refine ⟨he.io, fun hq => he.unquiet (hu.quiet hq), ts, hts, ?_⟩
    have h := hu.trans (Put.of_looked he.looked) hc
    rwa [List.append_nil] at h
  split
  next hm =>
    have htables : g.tables = [g.fatSect1, g.fatSect0] := if_pos hm
    have hne : g.fatSect0 ∉ [g.fatSect1] := by
      have hlen : 0 < g.fatLen := by
        have := hg.clustCnt_pos
        rw [Geometry.fatLen]
        omega
      have := hg.apart hm
      rw [List.mem_singleton]
      omega
    refine (putFat2_spec hg hs (htables ▸ List.mem_cons_self) hc val).mono
      (fun _ u hu => ?_) fun e t he => ⟨he.io, he.unquiet, [], List.not_mem_nil, .of_looked he.looked⟩
    rw [htables]
    exact hfirst hu hne
  next hm =>
    have htables : g.tables = [g.fatSect0] := if_neg hm
    rw [meets_pure, htables]
    exact hfirst (.of_looked (.refl g v)) List.not_mem_nil

/-! ## Synchronizing -/

/-- At most the sector of the info has changed. -/
structure Volume.Kept (g : Geometry) (v t : Volume) : Prop extends v.Onward t where
  view_eq : ∀ s, s ≠ g.infoSect → t.view s = v.view s
  keyed : Volume.Keyed g v t
  lastUsed : t.lastUsed = v.lastUsed
  freeCnt : t.freeCnt = v.freeCnt

theorem Volume.Looked.kept {g : Geometry} {v t : Volume} (h : Volume.Looked g v t) :
    Volume.Kept g v t :=
  ⟨h.toOnward, fun s _ => congrFun h.view_eq s, h.keyed, h.lastUsed, h.freeCnt⟩

theorem Volume.Kept.trans {g : Geometry} {v u t : Volume} (h : Volume.Kept g v u)
    (h' : Volume.Kept g u t) : Volume.Kept g v t :=
  ⟨h.toOnward.trans h'.toOnward, fun s hs => (h'.view_eq s hs).trans (h.view_eq s hs),
    h.keyed.trans h'.keyed, h'.lastUsed.trans h.lastUsed, h'.freeCnt.trans h.freeCnt⟩

/-- The medium is up to date, and the info on it as well. -/
structure Synced (g : Geometry) (v t : Volume) : Prop extends Volume.Kept g v t where
  store_eq : t.disk.store = t.view
  info_eq : t.view g.infoSect =
    if v.infoDirty then putInfo v.lastUsed v.freeCnt (v.view g.infoSect) else v.view g.infoSect
  infoDirty : t.infoDirty = false

/-- `sync_fs` brings the medium up to date. -/
theorem syncFs_spec {g : Geometry} {v : Volume} (hg : g.infoSect ≠ 0) (hs : v.Sound) :
    Meets (syncFs g) v (fun _ t => Synced g v t)
      fun e t => e = .error .io ∧ ¬ v.Quiet ∧ Volume.Kept g v t := by
  rw [syncFs]
  refine ((syncBuf_spec v).mono (fun _ _ h => h) fun _ _ he =>
    ⟨he.io, he.unquiet, he.looked.kept⟩).bind fun _ u hu => ?_
  obtain ⟨hsame, hclean, hkey, _⟩ := hu
  have hfirst : Volume.Kept g v u := (Volume.Looked.mk hsame (.inl hkey)).kept
  rw [meets_bind, meets_get]
  split
  next hinfo =>
    have hdirty : v.infoDirty = true := hsame.infoDirty.symm.trans hinfo
    have hfail : ∀ {w : Volume} {e : Stop FatError} {t : Volume}, Volume.Kept g u w →
        Refused w e t → e = .error .io ∧ ¬ v.Quiet ∧ Volume.Kept g v t := fun hw he =>
      ⟨he.io, fun hq => he.unquiet (hw.quiet (hsame.quiet hq)),
        (hfirst.trans hw).trans he.looked.kept⟩
    rw [← bind_assoc]
    refine ((updateBuf_edit_spec (putInfo u.lastUsed u.freeCnt) (hsame.sound hs) hg).mono
      (fun _ _ h => h) fun _ _ he => hfail (Volume.Looked.refl g u).kept he).bind fun _ w hw => ?_
    obtain ⟨hedit, _, hinfokey⟩ := hw
    have hkept : Volume.Kept g u w :=
      ⟨hedit.toOnward, fun s hs => by rw [hedit.view_eq, update_of_ne hs], .inr (.inr hinfokey),
        hedit.lastUsed, hedit.freeCnt⟩
    refine ((syncBuf_spec w).mono (fun _ _ h => h) fun _ _ he => hfail hkept he).bind
      fun _ t ht => ?_
    obtain ⟨hsame', hclean', hkey', _⟩ := ht
    have hfinal : Volume.Kept g v { t with infoDirty := false } :=
      (hfirst.trans hkept).trans
        ⟨⟨hsame'.quiet, fun h => ⟨(hsame'.sound h).coherent, (hsame'.sound h).whole⟩,
          hsame'.stale⟩, fun s _ => congrFun hsame'.view_eq s, .inl hkey', hsame'.lastUsed,
          hsame'.freeCnt⟩
    refine ⟨hfinal, (WriteBack.Cache.view_of_clean hclean').symm, ?_, rfl⟩
    rw [if_pos hdirty, ← hsame.view_eq, ← hsame.lastUsed, ← hsame.freeCnt]
    refine (congrFun hsame'.view_eq _).trans ?_
    rw [hedit.view_eq, update_self]
  next hinfo =>
    have hinfo : u.infoDirty = false := by simpa using hinfo
    rw [meets_pure]
    refine ⟨hfirst, (WriteBack.Cache.view_of_clean hclean).symm, ?_, hinfo⟩
    rw [← hsame.infoDirty, hinfo, hsame.view_eq]
    rfl

/-- The table is elsewhere than the info. -/
theorem Volume.Kept.item_eq {g : Geometry} {v t : Volume} (h : Volume.Kept g v t)
    (hg : g.Regular) {fs c : Nat} (hfs : fs ∈ g.tables) (hc : c < g.clustCnt) :
    t.item fs c = v.item fs c := by
  have hne : itemSect fs c ≠ g.infoSect := fun he =>
    hg.info_apart (he ▸ hg.inTables_itemSect hfs hc)
  rw [Volume.item, h.view_eq _ hne]
  rfl

end Demoos.Fat
