import Demoos.Files.Descriptors

/-!
# Slots and their pages

The opens and closes of files by one process.  An open takes a slot, a page for the `File` and a
page for the `FatResource`.  A close gives back the page of the `File`, but it takes a
page for a new `FatResource` and leaves that in the slot: the old `FatResource` is not freed, and no
open gets the slot again.
-/

namespace Demoos

open Function (update update_self update_of_ne)

/-- What a process does with its files. -/
inductive FileOp where
  | openFile
  | closeFile (fd : Int)

namespace Machine

variable {m₀ m m' : Machine} {p : Pid} {fd g x y : Nat}

/-- An open or close that works, of the library and of the kernel. -/
def fileOp (p : Pid) (m : Machine) : FileOp → Option Machine
  | .openFile =>
      match m.openFile p 0 with
      | .ok (fd, m) => if fd = -1 then none else some m
      | .error _ => none
  | .closeFile fd =>
      match m.closeFile p fd 0 with
      | .ok (result, m) => if result = 0 then some m else none
      | .error _ => none

/-- The page is a `FatResource` or a `File` of an open descriptor. -/
def Holds (m : Machine) (p : Pid) (g : Nat) : Prop :=
  ∃ fd < maxFilesPerProcess, m.descriptor p fd = .opened .file ∧
    (m.files p fd = g + vaStart ∨ m.ram.resourceObject (m.files p fd) = g + vaStart)

/-- The slots in use are those of the open descriptors, and of the pages that were not taken in
`m₀` these are the ones taken. -/
structure Reused (m₀ : Machine) (p : Pid) (m : Machine) : Prop where
  occupied : ∀ fd < maxFilesPerProcess, m.files p fd ≠ 0 ↔ m.descriptor p fd = .opened .file
  full : m.getFirstFreeFileDescriptor p = -1 →
    ∀ fd < maxFilesPerProcess, m.descriptor p fd = .opened .file
  pages : ∀ g, m.ram.Taken g ↔ m₀.ram.Taken g ∨ m.Holds p g
  returned : (∀ fd < maxFilesPerProcess, m.descriptor p fd ≠ .opened .file) →
    ∀ g, m.ram.Taken g ↔ m₀.ram.Taken g

theorem Reused.of_slots
    (hslot : ∀ fd < maxFilesPerProcess, m.files p fd ≠ 0 ↔ m.descriptor p fd = .opened .file)
    (hpages : ∀ g, m.ram.Taken g ↔ m₀.ram.Taken g ∨ m.Holds p g) : m₀.Reused p m := by
  refine ⟨hslot, fun hfull fd hfd => ?_, hpages, fun hclosed g => ?_⟩
  · rcases m.getFirstFree_cases p with ⟨_, hall⟩ | ⟨n, _, hn, _⟩
    · exact (hslot fd hfd).mp (hall fd hfd)
    · omega
  · refine (hpages g).trans (or_iff_left ?_)
    rintro ⟨fd, hfd, hd, _⟩
    exact hclosed fd hfd hd

/-! ## Opens -/

theorem fileOp_openFile (h : m.fileOp p .openFile = some m') :
    ∃ fd x y r r', fd < maxFilesPerProcess ∧ m.files p fd = 0 ∧ m.ram.Takes x r ∧ r.Takes y r' ∧
      m' = m.opened .file p fd x y r' := by
  unfold fileOp at h
  dsimp only at h
  split at h
  next result m₁ hopen =>
    split at h
    next => exact absurd h nofun
    next hresult =>
      obtain rfl := Option.some.inj h
      cases openResource_cases hopen with
      | full => exact absurd rfl hresult
      | failed _ herror => exact absurd rfl herror
      | opens hfd hfree hfile herror hx hy => exact ⟨_, _, _, _, _, hfd, hfile, hx, hy, rfl⟩
  next => exact absurd h nofun

theorem Owned.not_opened (h : m.Owned) (hp : p < m.nProcesses) (hfd : fd < maxFilesPerProcess)
    (hfile : m.files p fd = 0) (type : ResourceType) : m.descriptor p fd ≠ .opened type := by
  intro hd
  obtain ⟨g, hg⟩ := h.exists_resource hp hfd (by rw [hd]; nofun)
  exact kernelAddress_ne_zero g (hg.symm.trans hfile)

section Opened

variable {r r' : Ram}

/-- The pages behind the new slot. -/
theorem holds_opened_self (hfd : fd < maxFilesPerProcess) (hx : m.ram.Takes x r) :
    (m.opened .file p fd x y r').Holds p y ∧ (m.opened .file p fd x y r').Holds p x := by
  have hd : (m.opened .file p fd x y r').descriptor p fd = .opened .file :=
    descriptor_opened.trans (if_pos rfl)
  have hfile : (m.opened .file p fd x y r').files p fd = y + vaStart :=
    files_opened.trans (if_pos rfl)
  have hobject : (m.opened .file p fd x y r').ram.resourceObject (y + vaStart) = x + vaStart :=
    resourceObject_setResource (lt_kernelAddress hx.isPage)
  exact ⟨⟨fd, hfd, hd, .inl hfile⟩, ⟨fd, hfd, hd, .inr (by rw [hfile]; exact hobject)⟩⟩

/-- The pages behind the other slots. -/
theorem holds_opened_of_ne (h : m.Owned) (hp : p < m.nProcesses) (hx : m.ram.Takes x r)
    (hy : r.Takes y r') {n : Nat} (hn : n < maxFilesPerProcess) (hne : n ≠ fd)
    (hd : m.descriptor p n = .opened .file) :
    (m.opened .file p fd x y r').descriptor p n = .opened .file ∧
      (m.opened .file p fd x y r').files p n = m.files p n ∧
      (m.opened .file p fd x y r').ram.resourceObject (m.files p n) =
        m.ram.resourceObject (m.files p n) := by
  have hunused : m.descriptor p n ≠ .unused := by rw [hd]; nofun
  obtain ⟨z, hz⟩ := h.exists_resource hp hn hunused
  refine ⟨descriptor_opened.trans ((if_neg hne).trans hd), files_opened.trans (if_neg hne), ?_⟩
  refine resourceObject_congr ?_
  rw [hz, Nat.add_sub_cancel]
  exact byte_opened hx hy (h.taken (.resource p n) z ⟨hp, hn, hunused, hz⟩)

theorem holds_opened (h : m.Owned) (hp : p < m.nProcesses) (hfd : fd < maxFilesPerProcess)
    (hfile : m.files p fd = 0) (hx : m.ram.Takes x r) (hy : r.Takes y r') :
    (m.opened .file p fd x y r').Holds p g ↔ m.Holds p g ∨ g = x ∨ g = y := by
  constructor
  · rintro ⟨n, hn, hd, hpage⟩
    by_cases hne : n = fd
    · subst hne
      rw [files_opened, if_pos rfl] at hpage
      refine .inr (hpage.symm.imp (fun hobject => ?_) fun hresource => ?_)
      · have hself : (m.opened .file p n x y r').ram.resourceObject (y + vaStart) = x + vaStart :=
          resourceObject_setResource (lt_kernelAddress hx.isPage)
        exact (Nat.add_right_cancel (hself.symm.trans hobject)).symm
      · exact (Nat.add_right_cancel hresource).symm
    · rw [descriptor_opened, if_neg hne] at hd
      obtain ⟨_, hfiles, hobject⟩ := holds_opened_of_ne h hp hx hy hn hne hd
      rw [hfiles, hobject] at hpage
      exact .inl ⟨n, hn, hd, hpage⟩
  · rintro (⟨n, hn, hd, hpage⟩ | rfl | rfl)
    · have hne : n ≠ fd := fun he => h.not_opened hp hfd hfile .file (he ▸ hd)
      obtain ⟨hd', hfiles, hobject⟩ := holds_opened_of_ne h hp hx hy hn hne hd
      exact ⟨n, hn, hd', by rw [hfiles, hobject]; exact hpage⟩
    · exact (holds_opened_self hfd hx).2
    · exact (holds_opened_self hfd hx).1

theorem Reused.opened (hreused : m₀.Reused p m) (h : m.Owned) (hp : p < m.nProcesses)
    (hfd : fd < maxFilesPerProcess) (hfile : m.files p fd = 0) (hx : m.ram.Takes x r)
    (hy : r.Takes y r') : m₀.Reused p (m.opened .file p fd x y r') := by
  refine .of_slots (fun n hn => ?_) fun g => ?_
  · rw [files_opened, descriptor_opened]
    split
    next => exact iff_of_true (kernelAddress_ne_zero y) rfl
    next => exact hreused.occupied n hn
  · rw [taken_opened hx hy, holds_opened h hp hfd hfile hx hy, hreused.pages, or_assoc]

end Opened

/-! ## Closes -/

/-- A slot that no open gets again. -/
def Lost (m : Machine) (p : Pid) : Prop :=
  ∃ fd < maxFilesPerProcess, m.files p fd ≠ 0 ∧ m.descriptor p fd = .closed

theorem Lost.not_reused (h : m.Lost p) : ¬ m₀.Reused p m := by
  obtain ⟨fd, hfd, hfile, hd⟩ := h
  intro hreused
  have hopened := (hreused.occupied fd hfd).mp hfile
  rw [hd] at hopened
  exact absurd hopened nofun

theorem fileOp_closeFile {fd : Int} (h : m.fileOp p (.closeFile fd) = some m') :
    m.Closes p fd 0 0 m' := by
  unfold fileOp at h
  dsimp only at h
  split at h
  next result m₁ hclose =>
    split at h
    next hresult =>
      obtain rfl := Option.some.inj h
      rw [hresult] at hclose
      exact closeFile_cases hclose
    next => exact absurd h nofun
  next => exact absurd h nofun

theorem lost_closed {r : Ram} (hfd : fd < maxFilesPerProcess) : (m.closed p fd y r).Lost p := by
  refine ⟨fd, hfd, ?_, ?_⟩
  · unfold closed
    rw [files_setFile_self]
    exact kernelAddress_ne_zero y
  · unfold closed
    rw [descriptor_setFile_self]

theorem lost_closeFile {fd : Int} (h : m.fileOp p (.closeFile fd) = some m') : m'.Lost p := by
  cases fileOp_closeFile h with
  | failed herror => exact absurd rfl herror
  | closes hn _ _ _ _ _ hy => exact lost_closed hn

theorem Lost.openFile (hlost : m.Lost p) (h : m.fileOp p .openFile = some m') : m'.Lost p := by
  obtain ⟨n, hn, hfile, hd⟩ := hlost
  obtain ⟨fd, x, y, r, r', _, hfree, _, _, rfl⟩ := fileOp_openFile h
  have hne : n ≠ fd := fun he => hfile (he ▸ hfree)
  exact ⟨n, hn, by rw [files_opened, if_neg hne]; exact hfile,
    by rw [descriptor_opened, if_neg hne]; exact hd⟩

/-! ## Runs -/

/-- The state after the opens and closes `ops` of the process. -/
structure Accounts (m₀ : Machine) (p : Pid) (ops : List FileOp) (m : Machine) : Prop where
  owned : m.Owned
  lt : p < m.nProcesses
  reused : (∀ op ∈ ops, op = .openFile) → m₀.Reused p m
  lost : (∃ fd, FileOp.closeFile fd ∈ ops) → m.Lost p

theorem Accounts.openFile {ops : List FileOp} (h : m₀.Accounts p ops m)
    (hstep : m.fileOp p .openFile = some m') : m₀.Accounts p (ops ++ [.openFile]) m' := by
  have hlost := fun hlost : m.Lost p => hlost.openFile hstep
  obtain ⟨fd, x, y, r, r', hfd, hfile, hx, hy, rfl⟩ := fileOp_openFile hstep
  refine ⟨h.owned.opened hx hy, h.lt, fun hall => ?_, fun hclose => hlost (h.lost ?_)⟩
  · refine (h.reused fun op hop => hall op (List.mem_append_left _ hop)).opened h.owned h.lt hfd
      hfile
      hx hy
  · obtain ⟨fd', hmem⟩ := hclose
    rcases List.mem_append.mp hmem with hmem | hmem
    · exact ⟨fd', hmem⟩
    · exact absurd (List.mem_singleton.mp hmem) nofun

theorem Accounts.closeFile {ops : List FileOp} {fd : Int} (h : m₀.Accounts p ops m)
    (hstep : m.fileOp p (.closeFile fd) = some m') :
    m₀.Accounts p (ops ++ [.closeFile fd]) m' := by
  have hclose := fileOp_closeFile hstep
  refine ⟨hclose.owned h.owned h.lt, ?_, fun hall => ?_, fun _ => lost_closeFile hstep⟩
  · rw [hclose.sameProcesses.nProcesses]
    exact h.lt
  · exact absurd (hall (.closeFile fd) (List.mem_append_right _ List.mem_cons_self)) nofun

theorem Accounts.start (h : m₀.Owned) (hp : p < m₀.nProcesses)
    (hfresh : ∀ fd < maxFilesPerProcess, m₀.descriptor p fd = .unused) : m₀.Accounts p [] m₀ := by
  refine ⟨h, hp, fun _ => .of_slots (fun fd hfd => ?_) fun g => (or_iff_left ?_).symm, ?_⟩
  · refine iff_of_false (not_not.mpr ?_) (by rw [hfresh fd hfd]; nofun)
    cases h.slot p hp fd hfd with
    | unused _ hfile => exact hfile
    | opened _ _ _ hd => exact absurd ((hfresh fd hfd).symm.trans hd) nofun
    | closed _ hd => exact absurd ((hfresh fd hfd).symm.trans hd) nofun
  · rintro ⟨fd, hfd, hd, _⟩
    exact absurd ((hfresh fd hfd).symm.trans hd) nofun
  · rintro ⟨fd, hmem⟩
    exact absurd hmem nofun

/-- Slots and pages are in order as long as nothing is closed. -/
theorem reused_iff (h : m₀.Proceeds) (hp : p < m₀.nProcesses)
    (hfresh : ∀ fd < maxFilesPerProcess, m₀.descriptor p fd = .unused) {ops : List FileOp}
    (hrun : Transition.exec (fileOp p) ops m₀ = some m) :
    m₀.Reused p m ↔ ∀ op ∈ ops, op = .openFile := by
  have hend : m₀.Accounts p ops m :=
    Transition.exec_invariant (P := fun ops m => m₀.Accounts p ops m) (fun ops m op m' hm hstep => by
      cases op with
      | openFile => exact hm.openFile hstep
      | closeFile fd => exact hm.closeFile hstep) (.start h.orderly.owned hp hfresh) hrun
  refine ⟨fun hreused op hop => ?_, hend.reused⟩
  cases op with
  | openFile => rfl
  | closeFile fd => exact absurd hreused (hend.lost ⟨fd, hop⟩).not_reused

set_option maxRecDepth 100000 in
theorem fileOps_userProcess : ∃ m, Transition.exec proceed userProcess boot = some m ∧
    1 < m.nProcesses ∧ (∀ fd < maxFilesPerProcess, m.descriptor 1 fd = .unused) ∧
    (Transition.exec (fileOp 1) [.openFile, .openFile] m).isSome = true ∧
    (Transition.exec (fileOp 1) [.openFile, .closeFile 0] m).isSome = true := by
  have hrun : ((Transition.exec proceed userProcess boot).map fun m =>
      (decide (1 < m.nProcesses),
        decide (∀ fd < maxFilesPerProcess, m.descriptor 1 fd = .unused),
        (Transition.exec (fileOp 1) [.openFile, .openFile] m).isSome,
        (Transition.exec (fileOp 1) [.openFile, .closeFile 0] m).isSome)) =
      some (true, true, true, true) := by
    decide +kernel
  obtain ⟨m, hm, he⟩ := Option.map_eq_some_iff.mp hrun
  obtain ⟨hp, he⟩ := Prod.mk.inj he
  obtain ⟨hfresh, he⟩ := Prod.mk.inj he
  obtain ⟨hopens, hcloses⟩ := Prod.mk.inj he
  exact ⟨m, hm, of_decide_eq_true hp, of_decide_eq_true hfresh, hopens, hcloses⟩

/-- Two opens of a user process. -/
theorem reused_openFile : ∃ m₀ m, Transition.exec proceed userProcess boot = some m₀ ∧
    Transition.exec (fileOp 1) [.openFile, .openFile] m₀ = some m ∧ m₀.Reused 1 m := by
  obtain ⟨m₀, hm₀, hp, hfresh, hopens, _⟩ := fileOps_userProcess
  obtain ⟨m, hm⟩ := Option.isSome_iff_exists.mp hopens
  refine ⟨m₀, m, hm₀, hm, (reused_iff ⟨_, hm₀⟩ hp hfresh hm).mpr ?_⟩
  simp

/-- A user process opens a file and closes it. -/
theorem not_reused_closeFile : ∃ m₀ m, Transition.exec proceed userProcess boot = some m₀ ∧
    (∀ fd < maxFilesPerProcess, m₀.descriptor 1 fd = .unused) ∧
    Transition.exec (fileOp 1) [.openFile, .closeFile 0] m₀ = some m ∧ ¬ m₀.Reused 1 m := by
  obtain ⟨m₀, hm₀, hp, hfresh, _, hcloses⟩ := fileOps_userProcess
  obtain ⟨m, hm⟩ := Option.isSome_iff_exists.mp hcloses
  refine ⟨m₀, m, hm₀, hfresh, hm, Lost.not_reused (p := 1) ?_⟩
  obtain ⟨m₁, _, hlast⟩ := Option.bind_eq_some_iff.mp hm
  obtain ⟨m₂, hstep, hend⟩ := Option.bind_eq_some_iff.mp hlast
  cases hend
  exact lost_closeFile hstep

end Machine

end Demoos
