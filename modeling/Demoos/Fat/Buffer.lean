import Demoos.Fat.Volume

/-!
# The sector buffer

What the functions over the buffer do to the view of the medium, whichever transfers fail.  A
function that fails leaves the view as it was.  The buffer serves the view as long as it is
coherent, and it stays coherent unless a read fails that has changed the buffer all the same:
`fat->sect` then names the sector that was there before.
-/

namespace Demoos.Fat

open WriteBack (Cache)
open Program
open Function (update update_self update_of_ne)

namespace Volume

/-- Every transfer to come succeeds. -/
def Quiet (v : Volume) : Prop := (∀ a ∈ v.reads, a = .done) ∧ ∀ a ∈ v.writes, a = .done

/-- No read to come changes its buffer and fails. -/
def Whole (v : Volume) : Prop := ∀ a ∈ v.reads, ∀ target, a ≠ .torn target

/-- The buffer serves the view.  Sector 0 stands for the empty buffer of a new volume. -/
def Coherent (v : Volume) : Prop := v.disk.Coherent (· = 0)

structure Sound (v : Volume) : Prop where
  coherent : v.Coherent
  whole : v.Whole

/-- What the medium will hold. -/
def view (v : Volume) : Nat → Sector := v.disk.view

/-- What no function undoes. -/
structure Onward (v t : Volume) : Prop where
  quiet : v.Quiet → t.Quiet
  sound : v.Sound → t.Sound
  stale : t.stale = v.stale

/-- Nothing that matters has changed. -/
structure Same (v t : Volume) : Prop extends Onward v t where
  view_eq : t.view = v.view
  infoDirty : t.infoDirty = v.infoDirty
  lastUsed : t.lastUsed = v.lastUsed
  freeCnt : t.freeCnt = v.freeCnt

variable {u v t : Volume}

theorem Onward.refl (v : Volume) : Onward v v := ⟨id, id, rfl⟩

theorem Onward.trans (h : Onward u v) (h' : Onward v t) : Onward u t :=
  ⟨h'.quiet ∘ h.quiet, h'.sound ∘ h.sound, h'.stale.trans h.stale⟩

theorem Same.refl (v : Volume) : Same v v := ⟨.refl v, rfl, rfl, rfl, rfl⟩

theorem Same.trans (h : Same u v) (h' : Same v t) : Same u t :=
  ⟨h.toOnward.trans h'.toOnward, h'.view_eq.trans h.view_eq, h'.infoDirty.trans h.infoDirty,
    h'.lastUsed.trans h.lastUsed, h'.freeCnt.trans h.freeCnt⟩

instance : Std.Refl Onward := ⟨.refl⟩

instance : IsTrans Volume Onward := ⟨fun _ _ _ => .trans⟩

theorem Quiet.head_reads (h : v.Quiet) : v.reads.head?.getD .done = .done := by
  cases hr : v.reads with
  | nil => rfl
  | cons a as => exact h.1 a (hr ▸ List.mem_cons_self)

theorem Quiet.head_writes (h : v.Quiet) : v.writes.head?.getD .done = .done := by
  cases hw : v.writes with
  | nil => rfl
  | cons a as => exact h.2 a (hw ▸ List.mem_cons_self)

theorem Whole.head_reads (h : v.Whole) (target : Sector) :
    v.reads.head?.getD .done ≠ .torn target := by
  cases hr : v.reads with
  | nil => exact Answer.noConfusion
  | cons a as => exact h a (hr ▸ List.mem_cons_self) target

/-- A transfer that leaves the view and the buffer. -/
theorem same_of_transfer {reads writes : List Answer} (disk : Cache Nat Sector)
    (hreads : ∀ a ∈ reads, a ∈ v.reads) (hwrites : ∀ a ∈ writes, a ∈ v.writes)
    (hview : disk.view = v.disk.view) (hcoherent : v.Sound → disk.Coherent (· = 0)) :
    Same v { v with reads := reads, writes := writes, disk := disk } where
  quiet h := ⟨fun a ha => h.1 a (hreads a ha), fun a ha => h.2 a (hwrites a ha)⟩
  sound h := ⟨hcoherent h, fun a ha => h.whole a (hreads a ha)⟩
  stale := rfl
  view_eq := hview
  infoDirty := rfl
  lastUsed := rfl
  freeCnt := rfl

end Volume

open Volume

/-- How a transfer fails: with `FAT_ERR_IO`, and the medium is to blame. -/
structure Refused (v : Volume) (e : Stop FatError) (t : Volume) : Prop where
  io : e = .error .io
  same : v.Same t
  key : t.disk.key = v.disk.key
  unquiet : ¬ v.Quiet

variable {v : Volume}

/-! ## Transfers -/

theorem meets_opsRead {buf : Sector} {sect : Nat} {Q : Bool × Sector → Volume → Prop}
    {E : Stop FatError → Volume → Prop}
    (hdone : Q (true, v.disk.store sect) { v with reads := v.reads.tail })
    (hfail : ¬ v.Quiet → ∀ after, (v.Whole → after = buf) →
      Q (false, after) { v with reads := v.reads.tail }) :
    Meets (opsRead buf sect) v Q E := by
  rw [opsRead, meets_modifyGet]
  cases ha : v.reads.head?.getD .done with
  | done => exact hdone
  | refused => exact hfail (fun hq => by rw [hq.head_reads] at ha; cases ha) buf fun _ => rfl
  | torn target =>
      exact hfail (fun hq => by rw [hq.head_reads] at ha; cases ha) target
        fun h => absurd ha (h.head_reads target)

theorem meets_opsWrite {buf : Sector} {sect : Nat} {Q : Bool → Volume → Prop}
    {E : Stop FatError → Volume → Prop}
    (hdone : Q true { v with disk := v.disk.write sect buf, writes := v.writes.tail })
    (hfail : ¬ v.Quiet → ∀ disk, disk = v.disk ∨ (∃ target, disk = v.disk.write sect target) →
      Q false { v with disk := disk, writes := v.writes.tail }) :
    Meets (opsWrite buf sect) v Q E := by
  rw [opsWrite, meets_modifyGet]
  cases ha : v.writes.head?.getD .done with
  | done => exact hdone
  | refused =>
      exact hfail (fun hq => by rw [hq.head_writes] at ha; cases ha) v.disk (.inl rfl)
  | torn target =>
      exact hfail (fun hq => by rw [hq.head_writes] at ha; cases ha) _ (.inr ⟨target, rfl⟩)

/-! ## The buffer alone -/

/-- `sync_buf` brings the medium up to date and keeps the buffer. -/
theorem syncBuf_spec (v : Volume) :
    Meets syncBuf v
      (fun _ t => v.Same t ∧ t.disk.dirty = false ∧ t.disk.key = v.disk.key ∧
        t.disk.value = v.disk.value) (Refused v) := by
  simp only [syncBuf, meets_bind, meets_get]
  split
  next hd =>
    rw [meets_bind]
    refine meets_opsWrite ?_ fun hq disk hdisk => ?_
    · have hstore : (v.disk.write v.disk.key v.disk.value).store = v.disk.flush.store :=
        (Cache.view_of_dirty hd).symm
      refine ⟨same_of_transfer _ (fun _ h => h) (fun _ => List.mem_of_mem_tail) hstore
        fun h => ?_, rfl, rfl, rfl⟩
      exact fun _ hk => (h.coherent.value_eq hk).trans (congrFun hstore.symm v.disk.key)
    · have hkey : disk.key = v.disk.key := by
        rcases hdisk with rfl | ⟨target, rfl⟩ <;> rfl
      refine ⟨rfl, ?_, hkey, hq⟩
      rcases hdisk with rfl | ⟨target, rfl⟩
      · exact same_of_transfer _ (fun _ h => h) (fun _ => List.mem_of_mem_tail) rfl
          fun h => h.coherent
      · exact same_of_transfer _ (fun _ h => h) (fun _ => List.mem_of_mem_tail)
          (Cache.view_write_of_dirty hd) fun _ hc => absurd (hd.symm.trans hc) Bool.noConfusion
  next hd => exact ⟨.refl v, by simpa using hd, rfl, rfl⟩

/-- `update_buf` gets the sector into the buffer. -/
theorem updateBuf_spec (v : Volume) (sect : Nat) :
    Meets (updateBuf sect) v
      (fun _ t => v.Same t ∧ t.disk.key = sect ∧
        (v.Sound → sect ≠ 0 → t.disk.value = v.view sect)) (Refused v) := by
  simp only [updateBuf, meets_bind, meets_get]
  split
  next hkey =>
    simp only [meets_bind, meets_get, meets_modify]
    refine (syncBuf_spec v).mono (fun _ w hw => ?_) fun _ _ he => he
    obtain ⟨hsame, hclean, hkeep, _⟩ := hw
    refine meets_opsRead ?_ fun hq after hafter => ?_
    · refine ⟨hsame.trans ?_, trivial, fun _ _ => ?_⟩
      · exact same_of_transfer (w.disk.load sect) (fun _ => List.mem_of_mem_tail)
          (fun _ h => h) (Cache.view_load hclean) fun _ => Cache.coherent_load
      · rw [← hsame.view_eq, view, Cache.view_of_clean hclean]
    · show Refused v _ _
      refine ⟨rfl, hsame.trans ?_, hkeep, fun h => hq (hsame.quiet h)⟩
      refine same_of_transfer { w.disk with value := after }
        (fun _ => List.mem_of_mem_tail) (fun _ h => h) ?_ fun h => ?_
      · rw [Cache.view_of_clean hclean]
        exact Cache.view_of_clean hclean
      · rw [hafter h.whole]
        exact h.coherent
  next hkey =>
    have hkey : v.disk.key = sect := by simpa using hkey
    refine ⟨.refl v, hkey, fun hs hne => ?_⟩
    subst hkey
    exact hs.coherent.value_eq hne

/-- What `f` does to one sector of the view, once the sector is in the buffer. -/
theorem edit_spec (v : Volume) (f : Sector → Sector) :
    Meets (edit f) v
      (fun _ t => v.Onward t ∧ t.view = update v.view v.disk.key (f v.disk.value) ∧
        t.disk.dirty = true ∧ t.disk.key = v.disk.key ∧ t.infoDirty = v.infoDirty ∧
        t.lastUsed = v.lastUsed ∧ t.freeCnt = v.freeCnt)
      fun _ _ => False := by
  rw [edit, meets_modify]
  exact ⟨⟨fun h => h, fun h => ⟨Cache.coherent_put, h.whole⟩, rfl⟩, Cache.view_put, rfl, rfl, rfl,
    rfl, rfl⟩

/-- One sector of the view has changed, and nothing else that matters. -/
structure Edited (v : Volume) (sect : Nat) (f : Sector → Sector) (t : Volume) : Prop
    extends v.Onward t where
  view_eq : t.view = update v.view sect (f (v.view sect))
  infoDirty : t.infoDirty = v.infoDirty
  lastUsed : t.lastUsed = v.lastUsed
  freeCnt : t.freeCnt = v.freeCnt

/-- Change a sector through the buffer. -/
theorem updateBuf_edit_spec {sect : Nat} (f : Sector → Sector) (hs : v.Sound) (hne : sect ≠ 0) :
    Meets (updateBuf sect >>= fun _ => edit f) v
      (fun _ t => Edited v sect f t ∧ t.disk.dirty = true ∧ t.disk.key = sect) (Refused v) := by
  refine (updateBuf_spec v sect).bind fun _ u hu => ?_
  obtain ⟨hsame, hkey, hvalue⟩ := hu
  refine (edit_spec u f).mono (fun _ t ht => ?_) fun _ _ he => he.elim
  obtain ⟨hon, hview, hdirty, hkey', hinfo, hlast, hfree⟩ := ht
  refine ⟨⟨hsame.toOnward.trans hon, ?_, hinfo.trans hsame.infoDirty,
    hlast.trans hsame.lastUsed, hfree.trans hsame.freeCnt⟩, hdirty, hkey'.trans hkey⟩
  rw [hview, hkey, hvalue hs hne, hsame.view_eq]

end Demoos.Fat
