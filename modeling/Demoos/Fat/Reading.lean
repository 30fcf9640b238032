import Demoos.Fat.Listing
import Demoos.Files.Directory

/-!
# Reading a directory

`fat_dir_read` gives the first item in use from the handle on, and leaves the handle at the last
place of the item, from where `fat_dir_next` goes on.  So the library reads directories as
`syscall_get_next_entry` takes for granted that it does.
-/

namespace Demoos.Fat

open Program
open Tape (window)
open Function (update update_self update_of_ne)

variable {g : Geometry} {v u t : Volume} {w w' : DirState} {cs : List Nat} {c i j k n : Nat}
  {name : List Byte} {e : Entry} {items xs ys : List Item} {x : Item}

/-! ## `fat_dir_read` -/

/-- What `fat_dir_read` tells of an item. -/
def Item.info : Item → Option DirInfo
  | gap _ => none
  | short e => some (dirInfo (parseSfnName (sfnName e)) e)
  | long name _ e => some (dirInfo name e)

/-- The name of an item in use gets into `g_buf`. -/
theorem readName_spec (hg : g.Laid) (ha : g.Aligned) (hv : DirOk g cs v)
    (hlist : Listing g cs v (xs ++ x :: ys)) (hat : At g cs w.dir (slotsOf xs).length)
    (hload : Loaded v w) (he : x.slots.head? = some e) (hgap : ∀ e, x ≠ .gap e) :
    Meets (readName g e) (v, w)
      (fun _ s => Browsed g cs v s.1 ∧ Stood g cs w (lastPlace xs x) s.1 s.2 ∧
        x.info = some (dirInfo (window s.2.buf 0 s.2.len) (slot g cs v (lastPlace xs x))))
      fun _ _ => False := by
  have hok := hlist.ok_mid
  cases x with
  | gap e => exact absurd rfl (hgap e)
  | short e' =>
      obtain rfl : e' = e := Option.some.inj he
      have hplain : Plain e' := hok
      rw [readName, hplain.plain, if_neg Bool.false_ne_true]
      dsimp only
      rw [meets_setShared]
      refine ⟨.refl g cs v, ⟨rfl, rfl, hat, hload⟩, ?_⟩
      dsimp only
      have hslot : slot g cs v (lastPlace xs (.short e')) = e' := hlist.slot_eq (k := 0) rfl
      rw [Tape.window_splice, hslot]
      rfl
  | long name frags e' =>
      obtain ⟨hspells, hplain⟩ : Spells name frags (getCrc (sfnName e')) ∧ Plain e' := hok
      have hfrag : sfnIsLfn e = true := by
        rw [Item.slots, List.head?_append_of_ne_nil _ (List.ne_nil_of_length_pos hspells.pos),
          List.head?_eq_getElem?] at he
        rw [sfnIsLfn, (hspells.frag 0 e he).2.1]
        rfl
      rw [readName, hfrag, if_pos rfl, meets_bind]
      refine (parseLfnName_spec hg ha hv hspells hat
        (hlist.lt_places (by rw [Item.slots, List.length_append]; exact Nat.lt_succ_self _))
        fun i e he => hlist.slot_eq ?_).mono (fun _ s hs => ?_) fun _ _ he => he
      · rw [Item.slots, List.getElem?_append_left (List.getElem?_eq_some_iff.mp he).1, he]
      obtain ⟨hbrowsed, hread⟩ := hs
      obtain ⟨u, x⟩ := s
      have hu := hv.same hg.toRegular hbrowsed.toSame
      rw [meets_bind]
      refine (updateDir_loaded hg hu hread.place).mono (fun _ s hs => ?_) fun _ _ he => he
      obtain ⟨u', x⟩ := s
      obtain ⟨hbrowsed', rfl, hload'⟩ := hs
      have hb := hbrowsed.trans hbrowsed'
      have hentry := hload'.entry hread.place
      rw [slot_congr hb.view_eq, hlist.slot_last] at hentry
      have hplace : lastPlace xs (.long name frags e') = (slotsOf xs).length + frags.length := by
        rw [lastPlace, Item.slots, List.length_append]
        rfl
      rw [meets_bind, meets_dirPtr, meets_bind, meets_get]
      dsimp only
      have hcrc : x.crc = getCrc (sfnName e') := hread.crc
      rw [hentry, if_neg (by simp [hplain.used, hcrc]), meets_pure]
      refine ⟨hb, ⟨hread.fat, hread.sclust, ?_, hload'⟩, ?_⟩
      · rw [hplace]
        exact hread.place
      · rw [hplace, hlist.slot_last, hread.spelled.len, Nat.mul_zero, Nat.sub_zero,
          hread.spelled.window]
        rfl

/-- What a round of `fat_dir_read` at the item `x` gives. -/
structure Looked (g : Geometry) (cs : List Nat) (w : DirState) (xs : List Item) (x : Item)
    (r : Unit ⊕ DirInfo) (t : Volume) (w' : DirState) : Prop where
  fat : w'.dir.fat = w.dir.fat
  sclust : w'.dir.sclust = w.dir.sclust
  shown : ∀ i, r = .inr i → x.info = some i ∧ At g cs w'.dir (lastPlace xs x)
  more : ∀ y, r = .inl y → x.info = none ∧ At g cs w'.dir (slotsOf (xs ++ [x])).length

theorem dirReadStep_eq (g : Geometry) :
    dirReadStep g = roundAt g (fun e => do
      readName g e
      let e ← dirPtr
      let s ← get
      pure (.inr (dirInfo (Tape.window s.2.buf 0 s.2.len) e))) := rfl

theorem dirReadStep_spec (hg : g.Laid) (ha : g.Aligned) (hv : DirOk g cs v)
    (hlist : Listing g cs v (xs ++ x :: ys)) (hat : At g cs w.dir (slotsOf xs).length) :
    Meets (dirReadStep g) (v, w)
      (fun r s => Browsed g cs v s.1 ∧ Looked g cs w xs x r s.1 s.2)
      fun e s => e = .error .eof ∧ Browsed g cs v s.1 ∧ x.info = none ∧ ys = [] := by
  rw [dirReadStep_eq]
  by_cases hgap : ∃ e', x = .gap e'
  · obtain ⟨e', rfl⟩ := hgap
    refine (roundAt_gap hg ha hv hlist hat).mono (fun r s hs => ?_) fun e s he => ?_
    · obtain ⟨rfl, hbrowsed, hmoved⟩ := hs
      exact ⟨hbrowsed, hmoved.fat, hmoved.sclust, fun _ h => (by cases h),
        fun _ _ => ⟨rfl, hmoved.place⟩⟩
    · obtain ⟨he, hbrowsed, -, hys⟩ := he
      exact ⟨he, hbrowsed, rfl, hys⟩
  rw [not_exists] at hgap
  refine roundAt_used hg hv hlist hat hgap fun u e hbrowsed hload he => ?_
  rw [meets_bind]
  refine (readName_spec hg ha (hv.same hg.toRegular hbrowsed.toSame)
    (hlist.congr hbrowsed.view_eq) hat hload he hgap).mono (fun r s hs => ?_) fun _ _ he => he.elim
  obtain ⟨hbrowsed', hstood, hinfo⟩ := hs
  rw [meets_bind, meets_dirPtr, meets_bind, meets_get, meets_pure, hstood.loaded.entry hstood.place,
    slot_congr hbrowsed'.view_eq]
  exact ⟨hbrowsed.trans hbrowsed', hstood.fat, hstood.sclust,
    fun i hi => ⟨Sum.inr.inj hi ▸ hinfo, hstood.place⟩, fun _ h => (by cases h)⟩

/-- `fat_dir_read` has given an item. -/
structure Shown (g : Geometry) (cs : List Nat) (w : DirState) (xs gaps : List Item) (x : Item)
    (i : DirInfo) (w' : DirState) : Prop where
  fat : w'.dir.fat = w.dir.fat
  sclust : w'.dir.sclust = w.dir.sclust
  place : At g cs w'.dir (lastPlace (xs ++ gaps) x)
  info : x.info = some i
  gaps : ∀ y ∈ gaps, y.info = none

theorem dirReadLoop_spec (hg : g.Laid) (ha : g.Aligned) (hv : DirOk g cs v)
    (hlist : Listing g cs v (xs ++ ys)) (hat : At g cs w.dir (slotsOf xs).length)
    (hn : ys.length < n) :
    Meets (loop (fun _ => dirReadStep g) n ()) (v, w)
      (fun i s => Browsed g cs v s.1 ∧ ∃ gaps x ys', ys = gaps ++ x :: ys' ∧
        Shown g cs w xs gaps x i s.2)
      fun e s => e = .error .eof ∧ Browsed g cs v s.1 ∧ ∀ y ∈ ys, y.info = none := by
  induction n generalizing v w xs ys with
  | zero => omega
  | succ n ih =>
      rw [loop, meets_bind]
      cases ys with
      | nil =>
          rw [List.append_nil] at hlist
          rw [dirReadStep_eq]
          exact (roundAt_end hg hv hlist hat).mono (fun _ _ hs => hs.elim)
            fun _ _ he => ⟨he.1, he.2.1, fun y hy => (List.not_mem_nil hy).elim⟩
      | cons x ys =>
          refine (dirReadStep_spec hg ha hv hlist hat).mono (fun r s hs => ?_) fun e s he => ?_
          · obtain ⟨hbrowsed, hlook⟩ := hs
            cases r with
            | inl y =>
                obtain ⟨hnone, hplace⟩ := hlook.more y rfl
                rw [show xs ++ x :: ys = (xs ++ [x]) ++ ys by simp] at hlist
                refine (ih (hv.same hg.toRegular hbrowsed.toSame)
                  (hlist.congr hbrowsed.view_eq) hplace (by simpa using hn)).mono
                  (fun i s hs => ?_) fun e s he => ?_
                · obtain ⟨hbrowsed', gaps, x', ys', rfl, hshown⟩ := hs
                  refine ⟨hbrowsed.trans hbrowsed', x :: gaps, x', ys', rfl,
                    hshown.fat.trans hlook.fat, hshown.sclust.trans hlook.sclust, ?_,
                    hshown.info, List.forall_mem_cons.mpr ⟨hnone, hshown.gaps⟩⟩
                  have hplace' := hshown.place
                  rwa [List.append_assoc, List.singleton_append] at hplace'
                · exact ⟨he.1, hbrowsed.trans he.2.1,
                    List.forall_mem_cons.mpr ⟨hnone, he.2.2⟩⟩
            | inr i =>
                obtain ⟨hinfo, hplace⟩ := hlook.shown i rfl
                refine ⟨hbrowsed, [], x, ys, rfl, hlook.fat, hlook.sclust, ?_, hinfo,
                  fun y hy => (List.not_mem_nil hy).elim⟩
                rwa [List.append_nil]
          · obtain ⟨he, hbrowsed, hnone, rfl⟩ := he
            exact ⟨he, hbrowsed, by simpa using hnone⟩

/-- `fat_dir_read` gives the first item in use from the handle on. -/
theorem dirRead_spec (hg : g.Laid) (ha : g.Aligned) (hv : DirOk g cs v)
    (hlist : Listing g cs v (xs ++ ys)) (hat : At g cs w.dir (slotsOf xs).length)
    (hfat : w.dir.fat = true) (hn : ys.length < n) :
    Meets (dirRead g n) (v, w)
      (fun i s => Browsed g cs v s.1 ∧ ∃ gaps x ys', ys = gaps ++ x :: ys' ∧
        Shown g cs w xs gaps x i s.2)
      fun e s => e = .error .eof ∧ Browsed g cs v s.1 ∧ ∀ y ∈ ys, y.info = none := by
  rw [dirRead, meets_bind, meets_getDir]
  dsimp only
  rw [hfat, if_neg (by simp)]
  exact dirReadLoop_spec hg ha hv hlist hat hn

/-! ## What the system call relies on -/

/-- The values of the errors. -/
def FatError.code : FatError → Int
  | .noFat => -1
  | .broken => -2
  | .io => -3
  | .param => -4
  | .path => -5
  | .eof => -6
  | .denied => -7
  | .full => -8
  | .flags byte => byte

/-- What `syscall_get_next_entry` takes from a `DirInfo`. -/
def DirInfo.entry (i : DirInfo) : Demoos.DirInfo where
  name k := i.name.getD k 0
  nameLen := i.name.length
  isDir := i.attr &&& 0x10 ≠ 0

/-- The value of an error, where a program without a result counts as `FAT_ERR_BROKEN`. -/
def Stop.code : Stop FatError → Int
  | .error e => e.code
  | .spent => FatError.broken.code

/-- `fat_dir_read` and `fat_dir_next` as the library of `syscall_get_next_entry`. -/
def library (g : Geometry) (n : Nat) : DirLibrary (Volume × DirState) where
  read s :=
    match dirRead g n s with
    | .ok i t => (0, i.entry, t)
    | .error e t => (Stop.code e, ⟨fun _ => 0, 0, false⟩, t)
  next s :=
    match fatDirNext g s with
    | .ok _ t => (0, t)
    | .error e t => (Stop.code e, t)

/-- The last place of the directory is that of an item in use. -/
def Full (g : Geometry) (cs : List Nat) (items : List Item) : Prop :=
  (slotsOf items).length = places g cs ∧ ∃ xs x, items = xs ++ [x] ∧ x.info ≠ none

theorem length_parseSfnName (bytes : List Byte) (h : bytes.length ≤ 11) :
    (parseSfnName bytes).length ≤ 12 := by
  have hbase := (List.takeWhile_sublist (· ≠ (0x20 : Byte)) (l := bytes.take 8)).length_le
  have hext := (List.takeWhile_sublist (· ≠ (0x20 : Byte)) (l := bytes.drop 8)).length_le
  rw [List.length_take] at hbase
  rw [List.length_drop] at hext
  rw [parseSfnName, List.length_append, List.length_append]
  split <;> simp only [List.length_cons, List.length_nil] <;> omega

/-- A name that is read is not longer than 255 characters. -/
theorem Item.Ok.nameLen_le {i : DirInfo} (hx : x.Ok) (hi : x.info = some i) :
    i.entry.nameLen ≤ 255 := by
  cases x with
  | gap e => cases hi
  | short e =>
      obtain rfl := Option.some.inj hi
      have := length_parseSfnName (sfnName e) (by simp [sfnName])
      show (parseSfnName (sfnName e)).length ≤ 255
      omega
  | long name frags e =>
      obtain rfl := Option.some.inj hi
      exact hx.1.short

/-- The entries that a directory shows. -/
def entriesOf (items : List Item) : List Demoos.DirInfo :=
  items.filterMap fun x => x.info.map DirInfo.entry

theorem entriesOf_gaps {gaps : List Item} (h : ∀ y ∈ gaps, y.info = none) :
    entriesOf gaps = [] := by
  rw [entriesOf, List.filterMap_eq_nil_iff]
  intro y hy
  rw [h y hy]
  rfl

theorem library_read {i : DirInfo} {s t : Volume × DirState} (h : dirRead g n s = .ok i t) :
    (library g n).read s = (0, i.entry, t) := by
  simp only [library, h]

theorem library_next {s t : Volume × DirState} (h : fatDirNext g s = .ok () t) :
    (library g n).next s = (0, t) := by
  simp only [library, h]

theorem entriesOf_append (xs ys : List Item) :
    entriesOf (xs ++ ys) = entriesOf xs ++ entriesOf ys := List.filterMap_append

theorem entriesOf_cons {i : DirInfo} (h : x.info = some i) (ys : List Item) :
    entriesOf (x :: ys) = i.entry :: entriesOf ys := by
  rw [entriesOf, List.filterMap_cons, h]
  rfl

/-- Nothing in use behind a place that is not the last one: the last place is not in use. -/
theorem not_full (hnil : entriesOf ys = [])
    (hlt : (slotsOf xs).length < places g cs) : ¬ Full g cs (xs ++ ys) := by
  rintro ⟨hlen, zs, z, heq, hz⟩
  rcases List.eq_nil_or_concat ys with rfl | ⟨ys', y, rfl⟩
  · rw [List.append_nil] at hlen
    omega
  · rw [List.concat_eq_append] at heq hnil
    rw [← List.append_assoc] at heq
    obtain ⟨_, hy⟩ := List.append_inj' heq rfl
    obtain rfl := (List.cons.inj hy).1
    cases hi : y.info with
    | none => exact hz hi
    | some i =>
        rw [entriesOf_append, entriesOf_cons hi] at hnil
        exact List.cons_ne_nil _ _ (List.append_eq_nil_iff.mp hnil).2

/-- Moving behind an item that has been read. -/
theorem fatDirNext_spec (hg : g.Laid) (ha : g.Aligned) (hv : DirOk g cs v)
    (hat : At g cs w.dir (lastPlace xs x)) (hfat : w.dir.fat = true) :
    Meets (fatDirNext g) (v, w)
      (fun _ s => Browsed g cs v s.1 ∧ s.2.dir.fat = true ∧
        At g cs s.2.dir (slotsOf (xs ++ [x])).length)
      fun e _ => e = .error .eof ∧ (slotsOf (xs ++ [x])).length = places g cs := by
  rw [fatDirNext, meets_bind, meets_getDir]
  dsimp only
  rw [hfat, if_neg (by simp), length_slotsOf_concat]
  exact (dirNext_spec hg ha hv hat).mono
    (fun _ _ hs => ⟨hs.1, hs.2.fat.trans hfat, hs.2.place⟩) fun _ _ he => ⟨he.eof, he.last⟩

/-- On a directory in good order the library reads the items in use one after the other, as the
system call takes for granted. -/
theorem library_lists (hg : g.Laid) (ha : g.Aligned) (hv : DirOk g cs v)
    (hlist : Listing g cs v (xs ++ ys)) (hat : At g cs w.dir (slotsOf xs).length)
    (hfat : w.dir.fat = true) (hn : ys.length < n) {full : Bool}
    (hfull : full = true ↔ Full g cs (xs ++ ys)) :
    (library g n).Lists full (v, w) (entriesOf ys) := by
  induction hlen : ys.length using Nat.strong_induction_on generalizing v w xs ys with
  | _ m ih =>
  have hspec := dirRead_spec hg ha hv hlist hat hfat hn
  rcases hrun : dirRead g n (v, w) with ⟨i, u, w₁⟩ | ⟨e, t⟩
  · obtain ⟨hbrowsed, gaps, y, zs, rfl, hshown⟩ := hspec.of_ok hrun
    have hread := library_read hrun
    have happ : xs ++ (gaps ++ y :: zs) = (xs ++ gaps ++ [y]) ++ zs := by simp
    have hok : y.Ok := hlist.ok y (by simp)
    rw [entriesOf_append, entriesOf_gaps hshown.gaps, List.nil_append, entriesOf_cons hshown.info]
    rw [happ] at hlist hfull
    have hu := hv.same hg.toRegular hbrowsed.toSame
    have hlist' := hlist.congr hbrowsed.view_eq
    have hnext := fatDirNext_spec hg ha hu hshown.place (hshown.fat.trans hfat)
    rcases hrun' : fatDirNext g (u, w₁) with ⟨_, u', w₂⟩ | ⟨e, t⟩
    · obtain ⟨hbrowsed', hfat', hplace⟩ := hnext.of_ok hrun'
      refine .cons hread (hok.nameLen_le hshown.info) ?_ (library_next hrun') ?_
      · by_cases hnil : entriesOf zs = []
        · refine .inr ?_
          have hnot : ¬ Full g cs _ := not_full hnil hplace.lt_places
          rw [← hfull] at hnot
          simpa using hnot
        · exact .inl hnil
      · refine ih zs.length ?_ (hu.same hg.toRegular hbrowsed'.toSame)
          (hlist'.congr hbrowsed'.view_eq) hplace hfat' ?_ hfull rfl
        · rw [← hlen, List.length_append, List.length_cons]
          omega
        · rw [List.length_append, List.length_cons] at hn
          omega
    · obtain ⟨rfl, hend⟩ := hnext.of_error hrun'
      have hzs : zs = [] := by
        rw [List.append_assoc, List.singleton_append] at hlist
        rw [length_slotsOf_concat] at hend
        exact hlist.eq_nil_of_past hend
      subst hzs
      rw [List.append_nil] at hfull
      refine .last hread (hok.nameLen_le hshown.info) (hfull.mpr ⟨hend, _, y, rfl, ?_⟩) ?_
      · rw [hshown.info]
        exact Option.some_ne_none _
      · simp only [library, hrun']
        rfl
  · obtain ⟨rfl, _, hnone⟩ := hspec.of_error hrun
    rw [entriesOf_gaps hnone]
    refine .nil ?_
    simp only [library, hrun]
    decide

/-- Behind `fat_dir_rewind` the library reads all items in use of the directory, and it tells
whether the last one of them has the last place. -/
theorem library_rewound (hg : g.Laid) (ha : g.Aligned) (hv : DirOk g cs v)
    (hlist : Listing g cs v items) (hstart : cs[0]? = some w.dir.sclust)
    (hfat : w.dir.fat = true) (hn : items.length < n) {full : Bool}
    (hfull : full = true ↔ Full g cs items) :
    ∃ s, dirRewind g (v, w) = .ok () s ∧ (library g n).Lists full s (entriesOf items) := by
  refine ⟨(v, { w with dir :=
    { w.dir with clust := w.dir.sclust, sect := clustToSect g w.dir.sclust, idx := 0 } }), ?_, ?_⟩
  · have hspec : Meets (dirRewind g) (v, w) (fun _ s => s = (v, { w with dir :=
        { w.dir with clust := w.dir.sclust, sect := clustToSect g w.dir.sclust, idx := 0 } }))
        fun _ _ => False := by
      rw [dirRewind, meets_bind, meets_getDir, if_neg (by simp [hfat]), dirAtClust, meets_setDir]
    obtain ⟨_, s, hrun, rfl⟩ := hspec.exists_ok
    exact hrun
  · have hlist : Listing g cs v ([] ++ items) := hlist
    exact library_lists (w := { w with dir :=
      { w.dir with clust := w.dir.sclust, sect := clustToSect g w.dir.sclust, idx := 0 } })
      hg ha hv hlist (at_start hstart w.dir) hfat hn hfull

theorem not_full_named : ¬ Full .small [3, 4] Item.named := fun h => absurd h.1 (by decide)

theorem library_named : ∃ s, dirRewind .small (.named, .small) = .ok () s ∧
    (library .small 20).Lists false s (entriesOf Item.named) :=
  library_rewound Geometry.laid_small rfl dirOk_named listing_named rfl rfl (by decide)
    ⟨fun h => (by cases h), fun h => absurd h not_full_named⟩

end Demoos.Fat
