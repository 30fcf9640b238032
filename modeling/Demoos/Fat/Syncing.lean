import Demoos.Fat.Access

/-!
# Synchronizing files

`fat_file_sync` writes the buffer of the file, whether it is dirty or not, sets the size and the
dates in the entry of the file, and brings the volume up to date.  Afterwards the medium has
every byte of the file.
-/

namespace Demoos.Fat

open Program
open Chains (Cell Chain Apart)
open Function (update update_self update_of_ne)

variable {g : Geometry} {v u t : Volume} {f f' : File} {cs ds : List Nat} {ts : Timestamp}

/-- The sector of the entry of a file is in the data, and not one of these sectors. -/
structure Aside (g : Geometry) (cs : List Nat) (sect : Nat) : Prop where
  pos : sect ≠ 0
  not_low : ¬ g.Low sect
  ne : ∀ i < cs.length * g.spc, sect ≠ fileSect g cs i

/-- What `fat_file_sync` does to the entry, if it has to. -/
def synced (f : File) (ts : Timestamp) (buf : Sector) : Sector :=
  if f.flags.accessed || f.flags.modified then putSync f ts buf else buf

/-- What `fat_file_sync` gives. -/
structure SyncOut (g : Geometry) (cs : List Nat) (v : Volume) (f : File) (ts : Timestamp)
    (t : Volume) (f' : File) : Prop where
  file : f' = { f with flags.accessed := false, flags.modified := false }
  ok : FileOk g cs t f'
  fit : Fit g t
  stored : t.disk.store = t.view
  cells_eq : t.cells g = v.cells g
  key : t.disk.key = v.disk.key ∨ g.Low t.disk.key ∨ t.disk.key = f.dirSect
  buffer : t.view f.sect = f.buf
  entry : t.view f.dirSect = synced f ts (v.view f.dirSect)
  view_eq : ∀ s, ¬ g.Low s → s ≠ f.dirSect → s ≠ f.sect → t.view s = v.view s

/-- Setting the entry. -/
theorem setEntry_spec (hv : Fit g v) (hpos : f.dirSect ≠ 0) :
    Meets (if f.flags.accessed || f.flags.modified then
        onFst (do updateBuf f.dirSect; edit (putSync f ts))
      else pure () : FileM Unit) (v, f)
      (fun _ s => s.2 = f ∧ v.Onward s.1 ∧ s.1.lastUsed = v.lastUsed ∧
        s.1.view = update v.view f.dirSect (synced f ts (v.view f.dirSect)) ∧
        (s.1.disk.key = v.disk.key ∨ s.1.disk.key = f.dirSect))
      fun _ _ => False := by
  split
  next hset =>
    rw [meets_onFst]
    refine (updateBuf_edit_spec (putSync f ts) hv.sound hpos).mono (fun _ t ht => ?_)
      fun _ _ he => he.unquiet hv.quiet
    obtain ⟨hedit, _, hkey⟩ := ht
    refine ⟨rfl, hedit.toOnward, hedit.lastUsed, ?_, .inr hkey⟩
    rw [hedit.view_eq, synced, if_pos hset]
  next hset =>
    rw [meets_pure]
    refine ⟨rfl, .refl v, rfl, ?_, .inl rfl⟩
    rw [synced, if_neg hset, Function.update_eq_self]

theorem fileSync_spec (hg : g.Laid) (hv : Fit g v) (hok : FileOk g cs v f)
    (hdir : Aside g cs f.dirSect) :
    Meets (fileSync g ts) (v, f) (fun _ s => SyncOut g cs v f ts s.1 s.2) fun _ _ => False := by
  have hi := lt_room_iff.mp hok.offset_lt
  have hsect : v.disk.key ≠ f.sect := hok.sect ▸ hok.key _ hi
  have hdirne : f.dirSect ≠ f.sect := hok.sect ▸ hdir.ne _ hi
  have hown : ¬ g.Low f.sect := hok.sect ▸ not_low_fileSect hg hok.data hi
  rw [fileSync, meets_bind, meets_getFile, if_neg (by simp [hok.fat]), meets_bind, meets_onFst,
    meets_bind]
  refine (opsWrite_spec hv.quiet hsect).mono (fun ok u hu => ?_) fun _ _ he => he
  obtain ⟨rfl, hu⟩ := hu
  rw [transferred, if_pos rfl, meets_pure]
  have hufit : Fit g u := hv.of_tables hg.toRegular hu.toOnward
    (fun s hs => by rw [hu.view_eq, update_of_ne]; rintro rfl; exact hown (.inl hs)) hu.lastUsed
  refine (setEntry_spec hufit hdir.pos).bind fun _ s hs => ?_
  obtain ⟨w, f₁⟩ := s
  obtain ⟨hf₁, hon, hlast, hview, hkey⟩ := hs
  obtain rfl : f₁ = f := hf₁
  have hudir : u.view f₁.dirSect = v.view f₁.dirSect := by
    rw [hu.view_eq, update_of_ne hdirne]
  have hwview : ∀ s, s ≠ f₁.dirSect → s ≠ f₁.sect → w.view s = v.view s := fun s hd hs => by
    rw [hview, update_of_ne hd, hu.view_eq, update_of_ne hs]
  have hwlow : ∀ s, g.Low s → w.view s = v.view s := fun s hs =>
    hwview s (fun he => hdir.not_low (he ▸ hs)) fun he => hown (he ▸ hs)
  have hwfit : Fit g w := hv.of_tables hg.toRegular (hu.toOnward.trans hon)
    (fun s hs => hwlow s (.inl hs)) (hlast.trans hu.lastUsed)
  rw [meets_bind, meets_onFst]
  refine (syncFs_spec hg.info_pos.ne' hwfit.sound).mono (fun _ t ht => ?_) fun _ _ he =>
    he.2.1 hwfit.quiet
  rw [meets_setFile]
  have hcells : t.cells g = v.cells g := by
    rw [ht.cells_eq hg.toRegular, cells_of_tables hg.toRegular fun s hs => hwlow s (.inl hs)]
  have hrest : ∀ s, ¬ g.Low s → t.view s = w.view s := fun s hs =>
    ht.view_eq s fun he => hs (.inr he)
  have hkeys : t.disk.key = v.disk.key ∨ g.Low t.disk.key ∨ t.disk.key = f₁.dirSect := by
    rcases ht.keyed with heq | hl
    · rw [heq, ← hu.key]
      exact hkey.imp_right .inr
    · exact .inr (.inl hl)
  have hbuf : t.view f₁.sect = f₁.buf := by
    rw [hrest _ hown, hview, update_of_ne hdirne.symm, hu.view_eq, update_self]
  have hfit : Fit g t := hwfit.of_tables hg.toRegular ht.toOnward (fun s hs =>
    ht.view_eq s fun he => hg.info_apart (he ▸ hs)) ht.lastUsed
  refine ⟨rfl, ⟨hok.fat, ?_, hok.data, hok.head, hok.clust, hok.sect, fun _ => hbuf.symm,
    fun i hi => ?_⟩, hfit, ht.store_eq, hcells, hkeys, hbuf, ?_, fun s hs hd hsect => ?_⟩
  · rw [hcells]
    exact hok.chain
  · rcases hkeys with heq | hl | heq
    · rw [heq]
      exact hok.key i hi
    · exact fun he => not_low_fileSect hg hok.data hi (he ▸ hl)
    · rw [heq]
      exact hdir.ne i hi
  · rw [hrest _ hdir.not_low, hview, update_self, hudir]
  · rw [hrest s hs, hwview s hd hsect]

/-- The contents of a file that is synchronized are on the medium. -/
theorem SyncOut.durable (h : SyncOut g cs v f ts t f') (hg : g.Laid) (hok : FileOk g cs v f)
    (hdir : Aside g cs f.dirSect) {o : Nat} (ho : o < room g cs) :
    t.disk.store (fileSect g cs (o / 512)) (o % 512) = content g cs v f o := by
  have hi := lt_room_iff.mp ho
  rw [h.stored, content]
  split
  next heq => rw [heq, ← hok.sect, h.buffer]
  next hne =>
    rw [h.view_eq _ (not_low_fileSect hg hok.data hi) (hdir.ne _ hi).symm]
    rw [hok.sect]
    exact fun he => hne (fileSect_inj hg hok.data hok.chain.nodup hi
      (lt_room_iff.mp hok.offset_lt) he)

theorem SyncOut.content_eq (h : SyncOut g cs v f ts t f') (hg : g.Laid) (hok : FileOk g cs v f)
    (hdir : Aside g cs f.dirSect) {o : Nat} (ho : o < room g cs) :
    content g cs t f' o = content g cs v f o := by
  have hdur := h.durable hg hok hdir ho
  have hoff : f'.offset = f.offset := by rw [h.file]
  rw [content, hoff, ← hdur, h.stored]
  split
  next heq => rw [h.file, heq, ← hok.sect, h.buffer]
  next => rfl

end Demoos.Fat
