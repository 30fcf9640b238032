import Demoos.Memory.Spaces

/-!
# Who uses which page

A page in use has one use: it is a PCB, a page table or a user page of one process, or the
`FatResource`, `File` or `Dir` of one descriptor.  Such a page is marked in `memory_pages`.
There may be marked pages that nobody uses.

All calls keep this.  A call that works on the address space of a process sees the
marked pages outside of it as others' (`Others`).
-/

namespace Demoos

open Function (update update_self update_of_ne update_apply)

/-! ## Uses -/

inductive Use where
  | pcb (p : Pid)
  | table (p : Pid) (i : Nat)
  | user (p : Pid) (i : Nat)
  | resource (p : Pid) (fd : Nat)
  | object (p : Pid) (fd : Nat)

/-- The page is part of the address space of `p`. -/
def Use.OfSpace (p : Pid) : Use → Prop
  | .table q _ | .user q _ => q = p
  | _ => False

namespace Machine

/-- The PCB of init is not in a page.  The `FatResource` of a closed descriptor is still in
`files[]`. -/
def Uses (m : Machine) : Use → Nat → Prop
  | .pcb p, g => p ≠ initProcess ∧ p < m.nProcesses ∧ g = m.pcb p
  | .table p i, g => p < m.nProcesses ∧ i < (m.mm p).nKernelPages ∧ g = (m.mm p).kernelPages i
  | .user p i, g =>
      p < m.nProcesses ∧ i < (m.mm p).nUserPages ∧ g = ((m.mm p).userPages i).physicalAddress
  | .resource p fd, g => p < m.nProcesses ∧ fd < maxFilesPerProcess ∧
      m.descriptor p fd ≠ .unused ∧ m.files p fd = g + vaStart
  | .object p fd, g => p < m.nProcesses ∧ fd < maxFilesPerProcess ∧
      (∃ type, m.descriptor p fd = .opened type) ∧
      m.ram.resourceObject (m.files p fd) = g + vaStart

/-- The marked pages outside of the address space of `p`. -/
def Others (m : Machine) (p : Pid) (g : Nat) : Prop :=
  m.ram.Taken g ∧ ∀ u, m.Uses u g → ¬ u.OfSpace p

/-- What `files[fd]` of a process is. -/
inductive Slot (m : Machine) (p : Pid) (fd : Nat) : Prop
  | unused (hd : m.descriptor p fd = .unused) (hfile : m.files p fd = 0) : Slot m p fd
  | opened (type : ResourceType) (g x : Nat) (hd : m.descriptor p fd = .opened type)
      (hfile : m.files p fd = g + vaStart)
      (hobject : m.ram.resourceObject (m.files p fd) = x + vaStart)
      (htype : m.object x = some type) : Slot m p fd
  | closed (g : Nat) (hd : m.descriptor p fd = .closed) (hfile : m.files p fd = g + vaStart)
      (hobject : m.ram.resourceObject (m.files p fd) = 0) : Slot m p fd

structure Owned (m : Machine) : Prop where
  distinct : ∀ u v g, m.Uses u g → m.Uses v g → u = v
  taken : ∀ u g, m.Uses u g → m.ram.Taken g
  space : ∀ p < m.nProcesses, ∃ t, Space (m.mm p) m.ram t (fun _ => False) 0
  kernelThread : ∀ p < m.nProcesses, m.userMode p = false → (m.mm p).nUserPages = 0
  slot : ∀ p < m.nProcesses, ∀ fd < maxFilesPerProcess, m.Slot p fd

variable {m : Machine} {p q : Pid} {fd g x : Nat} {u : Use}

theorem resourceObject_congr {r r' : Ram} {address : Nat}
    (h : r'.byte (address - vaStart) = r.byte (address - vaStart)) :
    r'.resourceObject address = r.resourceObject address := by
  rw [Ram.resourceObject, Ram.resourceObject, h]

/-! ## Pages that nobody uses -/

/-- The pages in use are as they were, user pages apart. -/
structure Spared (m : Machine) (r : Ram) (object : Nat → Option ResourceType) : Prop where
  taken : ∀ u g, m.Uses u g → r.Taken g
  byte : ∀ u g, m.Uses u g → (∀ p i, u ≠ .user p i) → r.byte g = m.ram.byte g
  object : ∀ p fd g, m.Uses (.object p fd) g → object g = m.object g

theorem Spared.resourceObject {r : Ram} {object : Nat → Option ResourceType}
    (h : m.Spared r object) (hp : p < m.nProcesses) (hfd : fd < maxFilesPerProcess)
    (hd : m.descriptor p fd ≠ .unused) (hfile : m.files p fd = g + vaStart) :
    r.resourceObject (m.files p fd) = m.ram.resourceObject (m.files p fd) := by
  refine resourceObject_congr ?_
  rw [hfile, Nat.add_sub_cancel]
  exact h.byte (.resource p fd) g ⟨hp, hfd, hd, hfile⟩ nofun

theorem Owned.exists_resource (h : m.Owned) (hp : p < m.nProcesses) (hfd : fd < maxFilesPerProcess)
    (hd : m.descriptor p fd ≠ .unused) : ∃ g, m.files p fd = g + vaStart := by
  cases h.slot p hp fd hfd with
  | unused hu _ => exact absurd hu hd
  | opened _ g _ _ hfile => exact ⟨g, hfile⟩
  | closed g _ hfile => exact ⟨g, hfile⟩

theorem Owned.uses_spared (h : m.Owned) {r : Ram} {object : Nat → Option ResourceType}
    (hs : m.Spared r object) :
    ({ m with ram := r, object := object } : Machine).Uses u g ↔ m.Uses u g := by
  cases u with
  | object p fd =>
      refine and_congr_right fun hp => and_congr_right fun hfd => and_congr_right fun hd => ?_
      have hne : m.descriptor p fd ≠ .unused := fun he => by
        obtain ⟨_, hopened⟩ := hd
        exact absurd (he.symm.trans hopened) nofun
      obtain ⟨x, hfile⟩ := h.exists_resource hp hfd hne
      rw [hs.resourceObject hp hfd hne hfile]
  | _ => exact .rfl

/-- What happens to pages that nobody uses does not matter. -/
theorem Owned.frame (h : m.Owned) {r : Ram} {object : Nat → Option ResourceType}
    (hs : m.Spared r object) : ({ m with ram := r, object := object } : Machine).Owned where
  distinct u v g hu hv := h.distinct u v g ((h.uses_spared hs).mp hu) ((h.uses_spared hs).mp hv)
  taken u g hu := hs.taken u g ((h.uses_spared hs).mp hu)
  space p hp := by
    obtain ⟨t, ht⟩ := h.space p hp
    have htable : ∀ g, IsTable t g → ∃ i, m.Uses (.table p i) g := fun g hg => by
      obtain ⟨i, hi, rfl⟩ := ht.tables.tracked.complete g hg
      exact ⟨i, hp, hi, rfl⟩
    refine ⟨t, ht.congr (fun g hg => ?_) (fun g hg => ?_) fun _ => False.elim⟩
    · rcases hg with ⟨i, hi, rfl⟩ | hg
      · exact hs.taken (.user p i) _ ⟨hp, hi, rfl⟩
      · obtain ⟨i, hi⟩ := htable g hg
        exact hs.taken _ g hi
    · obtain ⟨i, hi⟩ := htable g hg
      exact hs.byte _ g hi nofun
  kernelThread := h.kernelThread
  slot p hp fd hfd := by
    cases h.slot p hp fd hfd with
    | unused hd hfile => exact .unused hd hfile
    | opened type g x hd hfile hobject htype =>
        have hne : m.descriptor p fd ≠ .unused := by rw [hd]; nofun
        refine .opened type g x hd hfile ?_ ?_
        · rw [← hobject]
          exact hs.resourceObject hp hfd hne hfile
        · rw [← htype]
          exact hs.object p fd x ⟨hp, hfd, ⟨type, hd⟩, hobject⟩
    | closed g hd hfile hobject =>
        have hne : m.descriptor p fd ≠ .unused := by rw [hd]; nofun
        refine .closed g hd hfile ?_
        rw [← hobject]
        exact hs.resourceObject hp hfd hne hfile

/-- A machine in which the same pages are in use as in `m`. -/
structure Alike (m m' : Machine) : Prop where
  owned : m'.Owned
  uses : ∀ u g, m'.Uses u g ↔ m.Uses u g

theorem Owned.alike (h : m.Owned) {r : Ram} {object : Nat → Option ResourceType}
    (hs : m.Spared r object) : m.Alike { m with ram := r, object := object } :=
  ⟨h.frame hs, fun _ _ => h.uses_spared hs⟩

theorem Alike.trans {m' m'' : Machine} (h : m.Alike m') (h' : m'.Alike m'') : m.Alike m'' :=
  ⟨h'.owned, fun u g => (h'.uses u g).trans (h.uses u g)⟩

theorem Owned.ne_takes (h : m.Owned) {r : Ram} (hx : m.ram.Takes x r) (hu : m.Uses u g) : g ≠ x :=
  fun he => hx.free (he ▸ h.taken u g hu)

theorem Owned.takes (h : m.Owned) {r : Ram} (hx : m.ram.Takes x r) : m.Alike { m with ram := r } := by
  refine h.alike ⟨fun u g hu => (hx.taken g).mpr (.inl (h.taken u g hu)), fun u g hu _ => ?_,
    fun _ _ _ _ => rfl⟩
  rw [hx.byte]
  exact update_of_ne (h.ne_takes hx hu) _ _

theorem Owned.allocate (h : m.Owned) : m.Alike m.allocate.2 := by
  by_cases hpage : m.ram.allocateKernelPage.1 = 0
  · refine h.alike ⟨fun u g hu => ?_, fun u g _ _ => ?_, fun _ _ _ _ => rfl⟩
    · rw [(Ram.allocateKernelPage_eq_zero hpage).1]
      exact h.taken u g hu
    · rw [(Ram.allocateKernelPage_eq_zero hpage).1]
  · obtain ⟨x, _, hx⟩ := Ram.takes_allocateKernelPage hpage
    exact h.takes hx

theorem ram_free (m : Machine) (address : Nat) : (m.free address).ram = (m.ram.freePage address).2 :=
  rfl

theorem Owned.free (h : m.Owned) (hx : IsPage x) (hu : ∀ u, ¬ m.Uses u x) :
    m.Alike (m.free (x + vaStart)) := by
  have hfrees := Ram.frees_freePage (r := m.ram) hx
  have hne : ∀ u g, m.Uses u g → g ≠ x := fun u g hg he => hu u (he ▸ hg)
  refine h.alike ⟨fun u g hg => (hfrees.taken g).mpr ⟨h.taken u g hg, hne u g hg⟩, fun u g hg _ => ?_,
    fun p fd g hg => ?_⟩
  · rw [hfrees.byte]
    exact update_of_ne (hne u g hg) _ _
  · rw [Nat.add_sub_cancel]
    exact update_of_ne (hne _ g hg) _ _

/-- A page that nobody uses may be written to, and given to the FAT library. -/
theorem Owned.write (h : m.Owned) {r : Ram} (object : Nat → Option ResourceType)
    (htaken : ∀ g, m.ram.Taken g → r.Taken g)
    (hbyte : ∀ u g, m.Uses u g → r.byte g = m.ram.byte g)
    (hobject : ∀ u g, m.Uses u g → object g = m.object g) :
    m.Alike { m with ram := r, object := object } :=
  h.alike ⟨fun u g hu => htaken g (h.taken u g hu), fun u g hu _ => hbyte u g hu,
    fun _ _ g hu => hobject _ g hu⟩

/-! ## Descriptors -/

theorem setFile_setFile (m : Machine) (p : Pid) (fd a b : Nat) (d e : Descriptor) :
    (m.setFile p fd a d).setFile p fd b e = m.setFile p fd b e := by
  simp only [setFile, update_self, Function.update_idem]

theorem update_slot {α : Type} (f : Pid → Nat → α) (p q : Pid) (fd fd' : Nat) (v : α) :
    update f p (update (f p) fd v) q fd' = if q = p ∧ fd' = fd then v else f q fd' := by
  rw [update_apply]
  by_cases hq : q = p
  · subst hq
    rw [if_pos rfl, update_apply]
    simp only [true_and]
  · rw [if_neg hq, if_neg fun h => hq h.1]

theorem files_setFile {a : Nat} {d : Descriptor} {fd' : Nat} :
    (m.setFile p fd a d).files q fd' = if q = p ∧ fd' = fd then a else m.files q fd' :=
  update_slot m.files p q fd fd' a

theorem descriptor_setFile {a : Nat} {d : Descriptor} {fd' : Nat} :
    (m.setFile p fd a d).descriptor q fd' = if q = p ∧ fd' = fd then d else m.descriptor q fd' :=
  update_slot m.descriptor p q fd fd' d

theorem files_setFile_self {a : Nat} {d : Descriptor} : (m.setFile p fd a d).files p fd = a :=
  files_setFile.trans (if_pos ⟨rfl, rfl⟩)

theorem descriptor_setFile_self {a : Nat} {d : Descriptor} :
    (m.setFile p fd a d).descriptor p fd = d :=
  descriptor_setFile.trans (if_pos ⟨rfl, rfl⟩)

theorem uses_setFile {a : Nat} {d : Descriptor} (hu : (m.setFile p fd a d).Uses u g) :
    (u ≠ .resource p fd ∧ u ≠ .object p fd ∧ m.Uses u g) ∨
    (u = .resource p fd ∧ d ≠ .unused ∧ a = g + vaStart) ∨
    (u = .object p fd ∧ (∃ type, d = .opened type) ∧ m.ram.resourceObject a = g + vaStart) := by
  cases u with
  | resource q fd' =>
      obtain ⟨hq, hfd', hd, hfile⟩ := hu
      rw [descriptor_setFile] at hd
      rw [files_setFile] at hfile
      by_cases he : q = p ∧ fd' = fd
      · obtain ⟨rfl, rfl⟩ := he
        rw [if_pos ⟨rfl, rfl⟩] at hd hfile
        exact .inr (.inl ⟨rfl, hd, hfile⟩)
      · rw [if_neg he] at hd hfile
        exact .inl ⟨fun hc => he (Use.resource.inj hc), nofun, hq, hfd', hd, hfile⟩
  | object q fd' =>
      obtain ⟨hq, hfd', hd, hfile⟩ := hu
      rw [descriptor_setFile] at hd
      rw [files_setFile] at hfile
      by_cases he : q = p ∧ fd' = fd
      · obtain ⟨rfl, rfl⟩ := he
        rw [if_pos ⟨rfl, rfl⟩] at hd hfile
        exact .inr (.inr ⟨rfl, hd, hfile⟩)
      · rw [if_neg he] at hd hfile
        exact .inl ⟨nofun, fun hc => he (Use.object.inj hc), hq, hfd', hd, hfile⟩
  | _ => exact .inl ⟨nofun, nofun, hu⟩

/-- A new value of a slot, whose pages nobody else uses. -/
theorem Owned.setFile (h : m.Owned) {a : Nat} {d : Descriptor}
    (hslot : (m.setFile p fd a d).Slot p fd)
    (hresource : ∀ g, d ≠ .unused → a = g + vaStart → m.ram.Taken g ∧
      ∀ u, m.Uses u g → u = .resource p fd ∨ u = .object p fd)
    (hobject : ∀ g, (∃ type, d = .opened type) → m.ram.resourceObject a = g + vaStart →
      m.ram.Taken g ∧ a ≠ g + vaStart ∧
      ∀ u, m.Uses u g → u = .resource p fd ∨ u = .object p fd) :
    (m.setFile p fd a d).Owned := by
  have hdistinct : ∀ u v g, (m.setFile p fd a d).Uses u g → (m.setFile p fd a d).Uses v g →
      u = v := by
    intro u v g hu hv
    rcases uses_setFile hu with ⟨hur, huo, hu⟩ | ⟨rfl, hd, ha⟩ | ⟨rfl, hd, ha⟩ <;>
      rcases uses_setFile hv with ⟨hvr, hvo, hv⟩ | ⟨rfl, hd', ha'⟩ | ⟨rfl, hd', ha'⟩
    · exact h.distinct u v g hu hv
    · exact absurd ((hresource g hd' ha').2 u hu) fun hc => hc.elim hur huo
    · exact absurd ((hobject g hd' ha').2.2 u hu) fun hc => hc.elim hur huo
    · exact absurd ((hresource g hd ha).2 v hv) fun hc => hc.elim hvr hvo
    · rfl
    · exact absurd ha (hobject g hd' ha').2.1
    · exact absurd ((hobject g hd ha).2.2 v hv) fun hc => hc.elim hvr hvo
    · exact absurd ha' (hobject g hd ha).2.1
    · rfl
  refine ⟨hdistinct, fun u g hu => ?_, h.space, h.kernelThread, fun q hq fd' hfd' => ?_⟩
  · rcases uses_setFile hu with ⟨_, _, hu⟩ | ⟨_, hd, ha⟩ | ⟨_, hd, ha⟩
    · exact h.taken u g hu
    · exact (hresource g hd ha).1
    · exact (hobject g hd ha).1
  · by_cases he : q = p ∧ fd' = fd
    · obtain ⟨rfl, rfl⟩ := he
      exact hslot
    · have hfiles : (m.setFile p fd a d).files q fd' = m.files q fd' := by
        rw [files_setFile, if_neg he]
      have hdescriptor : (m.setFile p fd a d).descriptor q fd' = m.descriptor q fd' := by
        rw [descriptor_setFile, if_neg he]
      cases h.slot q hq fd' hfd' with
      | unused hd hfile => exact .unused (hdescriptor.trans hd) (hfiles.trans hfile)
      | opened type g x hd hfile hobject htype =>
          exact .opened type g x (hdescriptor.trans hd) (hfiles.trans hfile)
            (by rw [hfiles]; exact hobject) htype
      | closed g hd hfile hobject =>
          exact .closed g (hdescriptor.trans hd) (hfiles.trans hfile)
            (by rw [hfiles]; exact hobject)

/-- A slot may be given up. -/
theorem Owned.drop (h : m.Owned) (p : Pid) (fd : Nat) : (m.setFile p fd 0 .unused).Owned := by
  refine h.setFile (.unused ?_ ?_) (fun g hd => absurd rfl hd) fun g hd => ?_
  · rw [descriptor_setFile_self]
  · rw [files_setFile_self]
  · obtain ⟨_, hd⟩ := hd
    exact absurd hd nofun

/-- Then its pages are not in use. -/
theorem unused_drop (hu : (m.setFile p fd 0 .unused).Uses u g) :
    m.Uses u g ∧ u ≠ .resource p fd ∧ u ≠ .object p fd := by
  rcases uses_setFile hu with ⟨hr, ho, hu⟩ | ⟨_, hd, _⟩ | ⟨_, ⟨_, hd⟩, _⟩
  · exact ⟨hu, hr, ho⟩
  · exact absurd rfl hd
  · exact absurd hd nofun

/-! ## Opens and closes -/

theorem byte_setResource {r : Ram} {y type object : Nat} (hg : g ≠ y) :
    (r.setResource (y + vaStart) type object).byte g = r.byte g := by
  unfold Ram.setResource
  dsimp only
  rw [Nat.add_sub_cancel]
  exact update_of_ne hg _ _

theorem resourceObject_setResource {r : Ram} {y type object : Nat} (ho : object < 256 ^ 8) :
    (r.setResource (y + vaStart) type object).resourceObject (y + vaStart) = object := by
  unfold Ram.setResource Ram.resourceObject
  dsimp only
  rw [update_self]
  exact Bytes.read_write ho

theorem lt_kernelAddress (hx : IsPage x) : x + vaStart < 256 ^ 8 := by
  have := hx.lt
  unfold vaStart
  omega

theorem kernelAddress_ne_zero (x : Nat) : x + vaStart ≠ 0 := by
  have : 0 < vaStart := by decide
  omega

theorem getFirstFree_cases (m : Machine) (p : Pid) :
    (m.getFirstFreeFileDescriptor p = -1 ∧ ∀ fd < maxFilesPerProcess, m.files p fd ≠ 0) ∨
    ∃ fd < maxFilesPerProcess, m.getFirstFreeFileDescriptor p = fd ∧ m.files p fd = 0 := by
  unfold getFirstFreeFileDescriptor
  cases hf : (List.range maxFilesPerProcess).find? fun i => m.files p i = 0 with
  | none =>
      refine .inl ⟨rfl, fun fd hfd => ?_⟩
      have hne := List.find?_eq_none.mp hf fd (List.mem_range.mpr hfd)
      exact fun he => hne (decide_eq_true he)
  | some fd =>
      have hzero := List.find?_some hf
      exact .inr ⟨fd, List.mem_range.mp (List.mem_of_find?_eq_some hf), rfl,
        of_decide_eq_true hzero⟩

/-- An open that works has taken the pages `x` and `y`. -/
def opened (m : Machine) (type : ResourceType) (p : Pid) (fd x y : Nat) (r : Ram) : Machine :=
  { m with
    ram := r.setResource (y + vaStart) type.value (x + vaStart)
    object := update m.object x (some type) }.setFile p fd (y + vaStart) (.opened type)

theorem files_opened {type : ResourceType} {y n : Nat} {r : Ram} :
    (m.opened type p fd x y r).files p n = if n = fd then y + vaStart else m.files p n := by
  unfold opened
  rw [files_setFile]
  exact if_congr (and_iff_right rfl) rfl rfl

theorem descriptor_opened {type : ResourceType} {y n : Nat} {r : Ram} :
    (m.opened type p fd x y r).descriptor p n =
      if n = fd then .opened type else m.descriptor p n := by
  unfold opened
  rw [descriptor_setFile]
  exact if_congr (and_iff_right rfl) rfl rfl

/-- What an open can do. -/
inductive Opens (m : Machine) (type : ResourceType) (failure : Int) (p : Pid) (error : Int) :
    Int → Machine → Prop
  | full (hfull : m.getFirstFreeFileDescriptor p = -1) : Opens m type failure p error (-1) m
  | failed {x : Nat} {r : Ram} (hfree : m.getFirstFreeFileDescriptor p ≠ -1) (herror : error ≠ 0)
      (hx : m.ram.Takes x r) :
      Opens m type failure p error failure ({ m with ram := r }.free (x + vaStart))
  | opens {fd x y : Nat} {r r' : Ram} (hfd : fd < maxFilesPerProcess)
      (hfree : m.getFirstFreeFileDescriptor p = fd) (hfile : m.files p fd = 0) (herror : error = 0)
      (hx : m.ram.Takes x r) (hy : r.Takes y r') :
      Opens m type failure p error fd (m.opened type p fd x y r')

theorem slot_of_lt {n : Nat} (hn : n < maxFilesPerProcess) : m.slot p n = .ok (m.files p n) :=
  if_pos ⟨Int.natCast_nonneg n, by omega⟩

theorem not_range {n : Nat} (hn : n < maxFilesPerProcess) :
    ¬ ((n : Int) < 0 ∨ (maxFilesPerProcess : Int) ≤ n) := by omega

theorem fatObject_of_ne {address : Nat} (h : address ≠ 0) (type : ResourceType) :
    m.fatObject address type =
      if m.object (address - vaStart) = some type then .ok () else .error .type := if_neg h

theorem slot_ok {a : Nat} {n : Nat} (h : m.slot p n = .ok a) :
    n < maxFilesPerProcess ∧ m.files p n = a := by
  unfold slot at h
  split at h
  next hn => exact ⟨by omega, Except.ok.inj h⟩
  next => exact absurd h nofun

theorem fatObject_ok {address : Nat} {type : ResourceType} {a : Unit}
    (h : m.fatObject address type = .ok a) :
    address ≠ 0 ∧ m.object (address - vaStart) = some type := by
  unfold fatObject at h
  split at h
  next => exact absurd h nofun
  next hne =>
    split at h
    next htype => exact ⟨hne, htype⟩
    next => exact absurd h nofun

theorem openResource_cases {type : ResourceType} {failure error result : Int} {m' : Machine}
    (h : openResource type failure m p error = .ok (result, m')) :
    m.Opens type failure p error result m' := by
  unfold openResource allocate at h
  dsimp only at h
  by_cases hfull : m.getFirstFreeFileDescriptor p = -1
  · rw [if_pos hfull] at h
    obtain ⟨rfl, rfl⟩ := Prod.mk.inj (Except.ok.inj h)
    exact .full hfull
  · rw [if_neg hfull] at h
    obtain ⟨object, ho, h⟩ := bind_ok h
    obtain ⟨rfl, hne⟩ := deref_ok ho
    obtain ⟨x, hobject, hx⟩ := Ram.takes_allocateKernelPage hne
    by_cases herror : error ≠ 0
    · rw [if_pos herror] at h
      obtain ⟨rfl, rfl⟩ := Prod.mk.inj (Except.ok.inj h)
      rw [hobject]
      exact .failed hfull herror hx
    · rw [if_neg herror] at h
      obtain ⟨resource, hr, h⟩ := bind_ok h
      obtain ⟨rfl, hne'⟩ := deref_ok hr
      obtain ⟨y, hresource, hy⟩ := Ram.takes_allocateKernelPage hne'
      obtain ⟨rfl, rfl⟩ := Prod.mk.inj (Except.ok.inj h)
      rcases m.getFirstFree_cases p with ⟨he, _⟩ | ⟨fd, hfd, hfree, hfile⟩
      · exact absurd he hfull
      · rw [hresource, hobject, Nat.add_sub_cancel, hfree]
        exact .opens hfd hfree hfile (not_not.mp herror) hx hy

theorem takes_setResource {r r' : Ram} {y : Nat} (hy : r.Takes y r') (type object : Nat)
    (hg : r.Taken g) :
    (r'.setResource (y + vaStart) type object).Taken g ∧
      (r'.setResource (y + vaStart) type object).byte g = r.byte g := by
  have hne : g ≠ y := fun he => hy.free (he ▸ hg)
  refine ⟨(hy.taken g).mpr (.inl hg), ?_⟩
  rw [byte_setResource hne, hy.byte]
  exact update_of_ne hne _ _

theorem taken_opened {type : ResourceType} {y : Nat} {r r' : Ram} (hx : m.ram.Takes x r)
    (hy : r.Takes y r') :
    (m.opened type p fd x y r').ram.Taken g ↔ m.ram.Taken g ∨ g = x ∨ g = y := by
  have htaken : (m.opened type p fd x y r').ram.Taken g ↔ r'.Taken g := .rfl
  rw [htaken, hy.taken, hx.taken, or_assoc]

theorem byte_opened {type : ResourceType} {y : Nat} {r r' : Ram} (hx : m.ram.Takes x r)
    (hy : r.Takes y r') (hg : m.ram.Taken g) :
    (m.opened type p fd x y r').ram.byte g = m.ram.byte g := by
  have hne : g ≠ x := fun he => hx.free (he ▸ hg)
  refine (takes_setResource hy _ _ ((hx.taken g).mpr (.inl hg))).2.trans ?_
  rw [hx.byte, update_of_ne hne]

/-- The pages of an open, before they are in a slot. -/
theorem Owned.alike_opened (h : m.Owned) (type : ResourceType) {y : Nat} {r r' : Ram}
    (hx : m.ram.Takes x r) (hy : r.Takes y r') : m.Alike { m with
      ram := r'.setResource (y + vaStart) type.value (x + vaStart)
      object := update m.object x (some type) } :=
  (h.takes hx).trans <| (h.takes hx).owned.write
    (update m.object x (some type)) (fun _ hg => (takes_setResource hy type.value (x + vaStart) hg).1)
    (fun u g hu =>
      (takes_setResource hy type.value (x + vaStart) ((h.takes hx).owned.taken u g hu)).2)
    fun u g hu => update_of_ne (h.ne_takes hx (((h.takes hx).uses u g).mp hu)) _ _

theorem Owned.opened (h : m.Owned) {type : ResourceType} {y : Nat} {r r' : Ram} (hx : m.ram.Takes x r)
    (hy : r.Takes y r') : (m.opened type p fd x y r').Owned := by
  have htaken : ∀ g, m.ram.Taken g → r.Taken g := fun g hg => (hx.taken g).mpr (.inl hg)
  have hxy : x ≠ y := fun he => hy.free (he ▸ (hx.taken x).mpr (.inr rfl))
  have hobject : (r'.setResource (y + vaStart) type.value (x + vaStart)).resourceObject
      (y + vaStart) = x + vaStart := resourceObject_setResource (lt_kernelAddress hx.isPage)
  have halike := h.alike_opened type hx hy
  refine halike.owned.setFile (.opened type y x ?_ ?_ ?_ (update_self ..)) (fun g _ he => ?_)
    fun g _ he => ?_
  · rw [descriptor_setFile_self]
  · rw [files_setFile_self]
  · rw [files_setFile_self]
    exact hobject
  · obtain rfl : y = g := Nat.add_right_cancel he
    refine ⟨(hy.taken y).mpr (.inr rfl), fun u hu => ?_⟩
    exact absurd (htaken y (h.taken u y ((halike.uses u y).mp hu))) hy.free
  · obtain rfl : x = g := Nat.add_right_cancel (hobject.symm.trans he)
    refine ⟨(hy.taken x).mpr (.inl ((hx.taken x).mpr (.inr rfl))), fun he' => hxy.symm ?_,
      fun u hu => ?_⟩
    · exact Nat.add_right_cancel he'
    · exact absurd (h.taken u x ((halike.uses u x).mp hu)) hx.free

theorem Opens.owned {type : ResourceType} {failure error result : Int} {m' : Machine}
    (hopen : m.Opens type failure p error result m') (h : m.Owned) : m'.Owned := by
  cases hopen with
  | full => exact h
  | failed hfree herror hx =>
      refine ((h.takes hx).owned.free hx.isPage fun u hu => ?_).owned
      exact h.ne_takes hx (((h.takes hx).uses u _).mp hu) rfl
  | opens hfd hfree hfile herror hx hy => exact h.opened hx hy

/-- A close that works has freed a page and taken the page `y`. -/
def closed (m : Machine) (p : Pid) (fd y : Nat) (r : Ram) : Machine :=
  { m with ram := r.setResource (y + vaStart) 0 0 }.setFile p fd (y + vaStart) .closed

theorem closed_drop {address y : Nat} {r : Ram} :
    ((m.setFile p fd 0 .unused).free address).closed p fd y r = (m.free address).closed p fd y r :=
  setFile_setFile { m.free address with ram := r.setResource (y + vaStart) 0 0 } p fd 0 (y + vaStart)
    .unused .closed

/-- What a close can do. -/
inductive Closes (m : Machine) (p : Pid) (fd error : Int) : Int → Machine → Prop
  | range (hfd : fd < 0 ∨ maxFilesPerProcess ≤ fd) : Closes m p fd error (-1) m
  | failed (herror : error ≠ 0) : Closes m p fd error error m
  | closes {n y : Nat} {r : Ram} (hn : n < maxFilesPerProcess) (hfd : fd = n)
      (hfile : m.files p n ≠ 0) (hobject : m.ram.resourceObject (m.files p n) ≠ 0)
      (htype : m.object (m.ram.resourceObject (m.files p n) - vaStart) = some .file)
      (herror : error = 0)
      (hy : (m.free (m.ram.resourceObject (m.files p n))).ram.Takes y r) :
      Closes m p fd error 0 ((m.free (m.ram.resourceObject (m.files p n))).closed p n y r)

theorem closeFile_cases {fd error result : Int} {m' : Machine}
    (h : m.closeFile p fd error = .ok (result, m')) : m.Closes p fd error result m' := by
  unfold closeFile allocate at h
  dsimp only at h
  by_cases hfd : fd < 0 ∨ (maxFilesPerProcess : Int) ≤ fd
  · rw [if_pos hfd] at h
    obtain ⟨rfl, rfl⟩ := Prod.mk.inj (Except.ok.inj h)
    exact .range hfd
  · rw [if_neg hfd] at h
    obtain ⟨n, rfl⟩ : ∃ n : Nat, fd = n := ⟨fd.toNat, by omega⟩
    obtain ⟨resource, hslot, h⟩ := bind_ok h
    obtain ⟨_, hresource, h⟩ := bind_ok h
    obtain ⟨rfl, hne⟩ := deref_ok hresource
    obtain ⟨_, hobject, h⟩ := bind_ok h
    obtain ⟨hn, rfl⟩ := slot_ok hslot
    obtain ⟨hne', htype⟩ := fatObject_ok hobject
    by_cases herror : error ≠ 0
    · rw [if_pos herror] at h
      obtain ⟨rfl, rfl⟩ := Prod.mk.inj (Except.ok.inj h)
      exact .failed herror
    · rw [if_neg herror] at h
      obtain ⟨_, hallocated, h⟩ := bind_ok h
      obtain ⟨rfl, hnew⟩ := deref_ok hallocated
      obtain ⟨y, hy, htakes⟩ := Ram.takes_allocateKernelPage hnew
      obtain ⟨rfl, rfl⟩ := Prod.mk.inj (Except.ok.inj h)
      rw [hy]
      exact .closes hn rfl hne hne' htype (not_not.mp herror) htakes

theorem Owned.opened_of_object (h : m.Owned) (hp : p < m.nProcesses) (hfd : fd < maxFilesPerProcess)
    (hfile : m.files p fd ≠ 0) (hobject : m.ram.resourceObject (m.files p fd) ≠ 0) :
    ∃ type x, m.descriptor p fd = .opened type ∧
      m.ram.resourceObject (m.files p fd) = x + vaStart ∧ m.Uses (.object p fd) x := by
  cases h.slot p hp fd hfd with
  | unused _ hf => exact absurd hf hfile
  | opened type g x hd _ ho _ => exact ⟨type, x, hd, ho, hp, hfd, ⟨type, hd⟩, ho⟩
  | closed _ _ _ ho => exact absurd ho hobject

theorem Owned.closed (h : m.Owned) {y : Nat} {r : Ram} (hy : m.ram.Takes y r) :
    (m.closed p fd y r).Owned := by
  have hobject : (r.setResource (y + vaStart) 0 0).resourceObject (y + vaStart) = 0 :=
    resourceObject_setResource (by decide)
  have halike := h.write m.object (fun g hg => (takes_setResource hy 0 0 hg).1)
    (fun u g hu => (takes_setResource hy 0 0 (h.taken u g hu)).2) fun _ _ _ => rfl
  refine halike.owned.setFile (.closed y ?_ ?_ ?_) (fun g _ he => ?_) fun g hd => ?_
  · rw [descriptor_setFile_self]
  · rw [files_setFile_self]
  · rw [files_setFile_self]
    exact hobject
  · obtain rfl : y = g := Nat.add_right_cancel he
    refine ⟨(hy.taken y).mpr (.inr rfl), fun u hu => ?_⟩
    exact absurd rfl (h.ne_takes hy ((halike.uses u y).mp hu))
  · obtain ⟨_, hd⟩ := hd
    exact absurd hd nofun

/-- The slot is given up before its page is freed. -/
theorem Closes.owned {fd error result : Int} {m' : Machine} (hclose : m.Closes p fd error result m')
    (h : m.Owned) (hp : p < m.nProcesses) : m'.Owned := by
  cases hclose with
  | range => exact h
  | failed => exact h
  | closes hn hfd hfile hobject _ _ hy =>
      obtain ⟨_, x, _, hx, huse⟩ := h.opened_of_object hp hn hfile hobject
      rw [hx] at hy ⊢
      have hfree := (h.drop p _).free (h.taken _ x huse).isPage fun u hu => by
        obtain ⟨hu, _, hne⟩ := unused_drop hu
        exact hne (h.distinct u _ x hu huse)
      rw [← closed_drop]
      exact hfree.owned.closed hy

end Machine

end Demoos
