import Demoos.Fat.Listing
import Demoos.Fat.Stretching

/-!
# Changing the places of a directory

`remove_entries` and `dir_add` change entries one after the other.  A change of the entry in
the buffer is a change of one place, and a run of them is written like a list onto a tape.  What
`dir_add` writes does not depend on what was there before.
-/

namespace Demoos.Fat

open Program
open Function (update update_self update_of_ne)

variable {g : Geometry} {v u t : Volume} {w w' : DirState} {d : Dir} {cs : List Nat}
  {c i j k n idx : Nat} {name : List Byte} {e e' : Entry} {buf : Sector} {es : List Entry}

/-! ## Entries of a sector -/

/-- The bytes of an entry, and zeros behind them. -/
def Entry.trim (e : Entry) : Entry := fun i => if i < 32 then e i else 0

theorem entryAt_editEntry (f : Entry → Entry) :
    entryAt (editEntry idx f buf) idx = (f (entryAt buf idx)).trim := by
  funext i
  simp only [entryAt, Entry.trim, editEntry]
  by_cases hi : i < 32
  · rw [if_pos hi, if_pos hi, if_pos (by omega), Nat.add_sub_cancel_left]
  · rw [if_neg hi, if_neg hi]

theorem entryAt_editEntry_other (f : Entry → Entry) (h : i + 32 ≤ idx ∨ idx + 32 ≤ i) :
    entryAt (editEntry idx f buf) i = entryAt buf i := by
  funext k
  simp only [entryAt, editEntry]
  by_cases hk : k < 32
  · rw [if_pos hk, if_pos hk, if_neg (by omega)]
  · rw [if_neg hk, if_neg hk]

/-! ## What is written -/

theorem Entry.trim_eq (h : ∀ i < 32, e i = e' i) (hzero : ∀ i, 32 ≤ i → e' i = 0) :
    e.trim = e' := by
  funext i
  rw [Entry.trim]
  split
  next hi => exact h i hi
  next hi => exact (hzero i (by omega)).symm

theorem lfnPlaces (name : List Byte) (hi : i < 32) :
    i ∈ (lfnCells name).map Prod.fst ∨ i ∈ [11, 0, 13, 12, 26, 27] := by
  have hfst : (lfnCells name).map Prod.fst =
      [1, 2, 3, 4, 5, 6, 7, 8, 9, 10, 14, 15, 16, 17, 18, 19, 20, 21, 22, 23, 24, 25, 28, 29, 30,
        31] := rfl
  have hall : ∀ i < 32, i ∈ [1, 2, 3, 4, 5, 6, 7, 8, 9, 10, 14, 15, 16, 17, 18, 19, 20, 21, 22,
      23, 24, 25, 28, 29, 30, 31] ∨ i ∈ [11, 0, 13, 12, 26, 27] := by decide
  rw [hfst]
  exact hall i hi

theorem lfnPlaces_lt (name : List Byte)
    (h : i ∈ (lfnCells name).map Prod.fst ∨ i ∈ [11, 0, 13, 12, 26, 27]) : i < 32 := by
  have hfst : (lfnCells name).map Prod.fst =
      [1, 2, 3, 4, 5, 6, 7, 8, 9, 10, 14, 15, 16, 17, 18, 19, 20, 21, 22, 23, 24, 25, 28, 29, 30,
        31] := rfl
  rw [hfst] at h
  simp only [List.mem_cons, List.not_mem_nil, or_false] at h
  omega

/-- A fragment takes the whole entry. -/
theorem trim_putLfn (name : List Byte) (mask crc : Byte) (k : Nat) (e : Entry) :
    (putLfn name mask crc k e).trim = putLfn name mask crc k fun _ => 0 := by
  refine Entry.trim_eq (fun i hi => ?_) fun i hi => ?_
  · refine Tape.pokes_congr ?_
    rcases lfnPlaces name hi with hin | hin
    · exact .inr (Tape.pokes_congr (.inl hin))
    · exact .inl hin
  · rw [putLfn, Tape.pokes_of_notMem fun h => absurd (lfnPlaces_lt name (.inr h)) (by omega),
      putLfnNameFrag, Tape.pokes_of_notMem fun h => absurd (lfnPlaces_lt name (.inl h)) (by omega)]

/-- The entry of a file takes the whole entry. -/
theorem trim_putSfn (name : List Byte) (attr : Byte) (clust date time : Nat) (e : Entry) :
    (putSfn name attr clust date time e).trim = putSfn name attr clust date time fun _ => 0 := by
  have hlen := length_putSfnName name
  refine Entry.trim_eq (fun i hi => ?_) fun i hi => ?_
  · simp only [putSfn]
    by_cases h28 : 28 ≤ i
    · exact Bytes.write_congr (.inl (by omega))
    refine Bytes.write_congr (.inr ?_)
    by_cases h18 : 18 ≤ i ∧ i < 20
    · exact Bytes.write_congr (.inl (by omega))
    refine Bytes.write_congr (.inr ?_)
    by_cases h24 : 24 ≤ i ∧ i < 26
    · exact Bytes.write_congr (.inl (by omega))
    refine Bytes.write_congr (.inr ?_)
    by_cases h16 : 16 ≤ i ∧ i < 18
    · exact Bytes.write_congr (.inl (by omega))
    refine Bytes.write_congr (.inr ?_)
    by_cases h22 : 22 ≤ i ∧ i < 24
    · exact Bytes.write_congr (.inl (by omega))
    refine Bytes.write_congr (.inr ?_)
    by_cases h14 : 14 ≤ i ∧ i < 16
    · exact Bytes.write_congr (.inl (by omega))
    refine Bytes.write_congr (.inr ?_)
    by_cases h11 : 11 ≤ i ∧ i < 14
    · refine Tape.pokes_congr (.inl ?_)
      simp only [List.map_cons, List.map_nil, List.mem_cons, List.not_mem_nil, or_false]
      omega
    refine Tape.pokes_congr (.inr ?_)
    by_cases h26 : 26 ≤ i ∧ i < 28
    · exact Bytes.write_congr (.inl (by omega))
    refine Bytes.write_congr (.inr ?_)
    by_cases h20 : 20 ≤ i ∧ i < 22
    · exact Bytes.write_congr (.inl (by omega))
    refine Bytes.write_congr (.inr (Tape.splice_congr fun h => ?_))
    omega
  · simp only [putSfn]
    rw [Bytes.write_outside (by omega), Bytes.write_outside (by omega),
      Bytes.write_outside (by omega), Bytes.write_outside (by omega),
      Bytes.write_outside (by omega), Bytes.write_outside (by omega), Tape.pokes_of_notMem,
      Bytes.write_outside (by omega), Bytes.write_outside (by omega), Tape.splice_of_le (by omega)]
    simp only [List.map_cons, List.map_nil, List.mem_cons, List.not_mem_nil, or_false]
    omega

/-! ## One place -/

/-- The places of the directory have changed, and no other sector. -/
structure Rewritten (g : Geometry) (cs : List Nat) (v : Volume) (slots : Nat → Entry)
    (t : Volume) : Prop extends Tended g cs v cs t where
  slot_eq : ∀ i < places g cs, slot g cs t i = slots i

theorem Rewritten.trans {slots slots' : Nat → Entry} (h : Rewritten g cs v slots u)
    (h' : Rewritten g cs u slots' t) : Rewritten g cs v slots' t :=
  ⟨h.toTended.trans h'.toTended, h'.slot_eq⟩

theorem Rewritten.browsed {slots : Nat → Entry} (h : Rewritten g cs v slots u) (hg : g.Laid)
    (h' : Browsed g cs u t) : Rewritten g cs v slots t :=
  ⟨h.toTended.trans (h'.tended hg h.ok), fun i hi =>
    (slot_congr h'.view_eq).trans (h.slot_eq i hi)⟩

theorem Rewritten.congr {slots slots' : Nat → Entry} (h : Rewritten g cs v slots t)
    (heq : ∀ i < places g cs, slots i = slots' i) : Rewritten g cs v slots' t :=
  ⟨h.toTended, fun i hi => (h.slot_eq i hi).trans (heq i hi)⟩

/-- Places of a sector. -/
theorem slot_update (hg : g.Laid) (hv : DirOk g cs v) (hj : j < places g cs) {f : Entry → Entry}
    (hview : t.view = update v.view (fileSect g cs (j / 16))
      (editEntry (32 * (j % 16)) f (v.view (fileSect g cs (j / 16))))) (hi : i < places g cs) :
    slot g cs t i = update (slot g cs v) j (f (slot g cs v j)).trim i := by
  rw [slot, hview]
  by_cases hsect : i / 16 = j / 16
  · rw [hsect, update_self]
    by_cases hij : i = j
    · rw [hij, update_self, entryAt_editEntry]
      rfl
    · rw [update_of_ne hij, entryAt_editEntry_other _ (by omega), slot, hsect]
  · have hne : fileSect g cs (i / 16) ≠ fileSect g cs (j / 16) := fun h =>
      hsect (fileSect_inj hg hv.data hv.chain.nodup (lt_places_iff.mp hi) (lt_places_iff.mp hj) h)
    rw [update_of_ne hne, update_of_ne (by rintro rfl; exact hsect rfl)]
    rfl

/-- Change the entry in the place of the handle, which the buffer has. -/
theorem editDir_spec (hg : g.Laid) (hv : DirOk g cs v) (hat : At g cs w.dir j)
    (hload : Loaded v w) (hkey : v.disk.key = w.dir.sect) (f : Entry → Entry) :
    Meets (editDir f) (v, w)
      (fun _ s => Rewritten g cs v (update (slot g cs v) j (f (slot g cs v j)).trim) s.1 ∧
        s.2 = w ∧ Loaded s.1 w)
      fun _ _ => False := by
  have hi := lt_places_iff.mp hat.lt_places
  rw [editDir, meets_bind, meets_getDir, meets_onFst]
  refine (edit_spec v (editEntry w.dir.idx f)).mono (fun _ t ht => ?_) fun _ _ he => he
  obtain ⟨hon, hview, hdirty, hkey', _, hlast, _⟩ := ht
  have hload : v.disk.value = v.view w.dir.sect := hload
  rw [hkey, hload] at hview
  have hlow : ∀ s, g.Low s → t.view s = v.view s := fun s hs => by
    rw [hview, update_of_ne]
    rintro rfl
    exact not_low_fileSect hg hv.data hi (hat.sect ▸ hs)
  have hcells : t.cells g = v.cells g :=
    cells_of_tables hg.toRegular fun s hs => hlow s (.inl hs)
  refine ⟨⟨⟨hon, ⟨?_, ?_, hv.data⟩, List.prefix_rfl, fun _ hr => ?_, by rw [free_congr hcells],
    fun s _ hs => ?_, ?_⟩, fun i hi => ?_⟩, rfl, ?_⟩
  · exact hv.fit.of_tables hg.toRegular hon (fun s hs => hlow s (.inl hs)) hlast
  · rw [hcells]
    exact hv.chain
  · rwa [hcells]
  · rw [hview, update_of_ne]
    rintro rfl
    exact hs _ hi hat.sect
  · exact .inl hkey'
  · refine slot_update hg hv hat.lt_places ?_ hi
    rw [hview, hat.sect, hat.idx]
  · have hval : t.view t.disk.key = t.disk.value := by
      rw [Volume.view, WriteBack.Cache.view_of_dirty hdirty, update_self]
    rw [Loaded, ← hval, hkey', hkey]

/-- Get the place of the handle into the buffer and change it. -/
theorem setEntry_at (hg : g.Laid) (hv : DirOk g cs v) (hat : At g cs w.dir j)
    (f : Entry → Entry) :
    Meets (do updateDir; editDir f) (v, w)
      (fun _ s => Rewritten g cs v (update (slot g cs v) j (f (slot g cs v j)).trim) s.1 ∧
        s.2 = w ∧ Loaded s.1 w)
      fun _ _ => False := by
  rw [meets_bind]
  refine (updateDir_spec hg hv hat).mono (fun _ s hs => ?_) fun _ _ he => he
  obtain ⟨u, x⟩ := s
  obtain ⟨hbrowsed, rfl, hkey, hvalue⟩ := hs
  have hslots : slot g cs u = slot g cs v := funext fun _ => slot_congr hbrowsed.view_eq
  refine (editDir_spec hg (hv.same hg.toRegular hbrowsed.toSame) hat ?_ hkey f).mono
    (fun _ s hs => ?_) fun _ _ he => he
  · show u.disk.value = u.view x.dir.sect
    rw [hbrowsed.view_eq]
    exact hvalue
  · rw [hslots] at hs
    exact ⟨⟨(hbrowsed.tended hg hv).trans hs.1.toTended, hs.1.slot_eq⟩, hs.2⟩

/-! ## The entries of a name -/

/-- Fragments, from number `n` down. -/
def fragEntries (name : List Byte) (crc : Byte) : Nat → Byte → List Entry
  | 0, _ => []
  | i + 1, mask =>
      putLfn ((name.drop (13 * i)).take 13) mask crc (i + 1) (fun _ => 0) ::
        fragEntries name crc i 0

/-- What `dir_add` writes for a name. -/
def nameFrags (name : List Byte) : List Entry :=
  fragEntries name (getCrc (putSfnName name)) (lfnCount name) 0x40

/-- What `dir_add` writes behind the fragments. -/
def nameEntry (ts : Timestamp) (name : List Byte) (attr : Byte) (clust : Nat) : Entry :=
  putSfn name attr clust (encodeTimestamp ts).1 (encodeTimestamp ts).2 fun _ => 0

theorem length_fragEntries (name : List Byte) (crc mask : Byte) (n : Nat) :
    (fragEntries name crc n mask).length = n := by
  induction n generalizing mask with
  | zero => rfl
  | succ n ih => rw [fragEntries, List.length_cons, ih]

theorem length_nameFrags (name : List Byte) : (nameFrags name).length = lfnCount name :=
  length_fragEntries _ _ _ _

/-- A cell and the list behind it. -/
theorem splice_update {α : Type*} (b : Nat → α) (a : α) (as : List α) :
    Tape.splice (update b j a) (j + 1) as = Tape.splice b j (a :: as) := by
  rw [← List.singleton_append, Tape.splice_append, Tape.splice_singleton]
  rfl

theorem putFrags_spec (hg : g.Laid) (ha : g.Aligned) (hv : DirOk g cs v) (hat : At g cs w.dir j)
    (hlt : j + n < places g cs) (name : List Byte) (crc mask : Byte) :
    Meets (putFrags g name crc n mask) (v, w)
      (fun _ s => Rewritten g cs v (Tape.splice (slot g cs v) j (fragEntries name crc n mask)) s.1 ∧
        Moved g cs w s.2 (j + n))
      fun _ _ => False := by
  induction n generalizing v w j mask with
  | zero =>
      refine ⟨⟨.refl hv, fun i _ => ?_⟩, ⟨w.dir, rfl⟩, rfl, rfl, hat⟩
      rw [fragEntries, Tape.splice_nil]
  | succ n ih =>
      rw [putFrags, ← bind_assoc, meets_bind]
      refine (setEntry_at hg hv hat _).mono (fun _ s hs => ?_) fun _ _ he => he
      obtain ⟨u, x⟩ := s
      obtain ⟨hwrite, rfl, -⟩ := hs
      rw [trim_putLfn] at hwrite
      rw [meets_bind]
      refine (dirNext_spec hg ha hwrite.ok hat).mono (fun _ s hs => ?_) fun _ _ he => ?_
      · obtain ⟨u', x'⟩ := s
        obtain ⟨hbrowsed, hmoved⟩ := hs
        have hwrite' := hwrite.browsed hg hbrowsed
        refine (ih hwrite'.ok hmoved.place (by omega) 0).mono (fun _ s hs => ?_) fun _ _ he => he
        obtain ⟨hrest, hmoved'⟩ := hs
        refine ⟨(hwrite'.trans hrest).congr fun i hi => ?_, ?_⟩
        · rw [fragEntries, ← splice_update]
          exact Tape.splice_congr fun _ => hwrite'.slot_eq i hi
        · have hmoved := hmoved.trans hmoved'
          rwa [Nat.add_right_comm] at hmoved
      · have := he.last
        omega

/-- The handle at a `Loc` of a cluster. -/
def Dir.goTo (d : Dir) (clust : Nat) (loc : Loc) : Dir :=
  { d with clust := clust, sect := loc.sect, idx := loc.idx }

theorem at_locAt (hg : g.Laid) (hcs : InData g cs) (hj : j < places g cs) (d : Dir) :
    At g cs (d.goTo (sectToClust g (locAt g cs j).sect) (locAt g cs j)) j := by
  have hi := lt_places_iff.mp hj
  have hk : j / 16 / g.spc < cs.length := (Nat.div_lt_iff_lt_mul g.spc_pos).mpr hi
  have hc := hcs _ (List.getElem_mem hk)
  refine ⟨?_, rfl, rfl⟩
  have hsect : sectToClust g (locAt g cs j).sect = cs[j / 16 / g.spc] := by
    rw [locAt, fileSect, List.getD_eq_getElem _ _ hk]
    exact hg.sectToClust_clustToSect hc.1 hc.2 (Nat.mod_lt _ g.spc_pos)
  rw [Dir.goTo, hsect, List.getElem?_eq_getElem hk]

theorem meets_rewindTo {loc : Loc} {Q : PUnit → Volume × DirState → Prop}
    {E : Stop FatError → Volume × DirState → Prop} : Meets (rewindTo g loc) (v, w) Q E ↔
      Q ⟨⟩ (v, { w with dir := w.dir.goTo (sectToClust g loc.sect) loc }) := .rfl

theorem Moved.of_goTo {loc : Loc} (h : Moved g cs { w with dir := w.dir.goTo c loc } w' j) :
    w'.dir.fat = w.dir.fat ∧ w'.dir.sclust = w.dir.sclust := ⟨h.fat, h.sclust⟩

/-- What is written for a name, and the handle at its last entry. -/
theorem putEntries_spec (hg : g.Laid) (ha : g.Aligned) (hv : DirOk g cs v) (ts : Timestamp)
    (name : List Byte) (attr : Byte) (clust : Nat) (hlt : j + lfnCount name < places g cs) :
    Meets (putEntries g ts name attr clust (locAt g cs j)) (v, w)
      (fun _ s => Rewritten g cs v (Tape.splice (slot g cs v) j
          (nameFrags name ++ [nameEntry ts name attr clust])) s.1 ∧
        Stood g cs w (j + lfnCount name) s.1 s.2)
      fun _ _ => False := by
  have hat := at_locAt hg hv.data (j := j) (by omega) w.dir
  rw [putEntries, meets_bind, meets_rewindTo, meets_bind]
  generalize locAt g cs j = loc at hat ⊢
  refine (putFrags_spec hg ha hv hat hlt name
    (getCrc (putSfnName name)) 0x40).mono (fun _ s hs => ?_) fun _ _ he => he
  obtain ⟨u, x⟩ := s
  obtain ⟨hfrags, hmoved⟩ := hs
  refine (setEntry_at hg hfrags.ok hmoved.place _).mono (fun _ s hs => ?_) fun _ _ he => he
  obtain ⟨t, x'⟩ := s
  obtain ⟨hlast, rfl, hload⟩ := hs
  rw [trim_putSfn] at hlast
  refine ⟨(hfrags.trans hlast).congr fun i hi => ?_, hmoved.of_goTo.1, hmoved.of_goTo.2,
    hmoved.place, hload⟩
  rw [Tape.splice_append, length_nameFrags, Tape.splice_singleton]
  by_cases hi' : i = j + lfnCount name
  · rw [hi', update_self, update_self]
    rfl
  · rw [update_of_ne hi', update_of_ne hi']
    exact hfrags.slot_eq i hi

end Demoos.Fat
