import Demoos.Memory.Isolation

/-!
# Descriptors

The four system calls that are given a descriptor check different things about it.  `closeFile`
checks the range, `writeFile` that there is a `FatResource`, `getNextEntry` that there is a `Dir`
behind it, and `readFile` nothing.  What a slot can be follows from its history: `files[fd]` is
`NULL` until the first open, and behind a closed descriptor is a `NULL`.
-/

namespace Demoos

/-- The calls on a descriptor. -/
inductive Access where
  | closeFile
  | writeFile
  | readFile
  | getNextEntry
deriving DecidableEq, Repr

namespace Access

/-- What the function of the FAT library works on. -/
def type : Access → ResourceType
  | .closeFile | .writeFile | .readFile => .file
  | .getNextEntry => .folder

/-- The call, with what the library answers. -/
def call (fd error nextError : Int) : Access → Machine.Call
  | .closeFile => .closeFile fd error
  | .writeFile => .writeFile fd error
  | .readFile => .readFile fd error
  | .getNextEntry => .getNextEntry fd error nextError

/-- The histories that a call is ready for, where an index outside of `files[]` has none. -/
def Admits : Access → Option Descriptor → Prop
  | .closeFile, d => d = none ∨ d = some (.opened .file)
  | .writeFile, d => d = some .unused ∨ d = some (.opened .file)
  | .readFile, d => d = some (.opened .file)
  | .getNextEntry, d => d = some .closed ∨ d = some (.opened .folder)

end Access

namespace Machine

variable {m : Machine} {p : Pid} {fd : Int} {a : Access}

def history (m : Machine) (p : Pid) (fd : Int) : Option Descriptor :=
  if 0 ≤ fd ∧ fd < maxFilesPerProcess then some (m.descriptor p fd.toNat) else none

/-- Whatever the library answers, the call comes to its end.  It has failed and changed nothing, or
the descriptor is open and has what the call is about. -/
def Safe (m : Machine) (p : Pid) (fd : Int) (a : Access) : Prop :=
  ∀ error nextError, ∃ result m', m.call p (a.call fd error nextError) = .ok (result, m') ∧
    ((result = -1 ∧ m' = m) ∨
      ∃ n < maxFilesPerProcess, fd = n ∧ m.files p n ≠ 0 ∧ m.descriptor p n = .opened a.type)

/-! ## One call -/

theorem not_safe {e : Fault} (h : m.call p (a.call fd 0 0) = .error e) : ¬ m.Safe p fd a := by
  intro hsafe
  obtain ⟨result, m', hcall, _⟩ := hsafe 0 0
  exact absurd (h.symm.trans hcall) nofun

theorem safe_of_error (h : ∀ error nextError, m.call p (a.call fd error nextError) = .ok (-1, m)) :
    m.Safe p fd a := fun error nextError => ⟨-1, m, h error nextError, .inl ⟨rfl, rfl⟩⟩

theorem safe_of_open {n : Nat} (hn : n < maxFilesPerProcess) (hfile : m.files p n ≠ 0)
    (hd : m.descriptor p n = .opened a.type)
    (h : ∀ error nextError, ∃ result, m.call p (a.call n error nextError) = .ok result) :
    m.Safe p n a := by
  intro error nextError
  obtain ⟨⟨result, m'⟩, hcall⟩ := h error nextError
  exact ⟨result, m', hcall, .inr ⟨n, hn, rfl, hfile, hd⟩⟩

theorem slot_of_range (h : ¬ (0 ≤ fd ∧ fd < maxFilesPerProcess)) : m.slot p fd = .error .index :=
  if_neg h

theorem history_of_lt {n : Nat} (hn : n < maxFilesPerProcess) :
    m.history p n = some (m.descriptor p n) := if_pos ⟨Int.natCast_nonneg n, by omega⟩

theorem history_of_range (h : ¬ (0 ≤ fd ∧ fd < maxFilesPerProcess)) : m.history p fd = none :=
  if_neg h

/-- After a page has been freed there is one to allocate. -/
theorem allocate_free {x : Nat} (hx : IsPage x) :
    (m.free (x + vaStart)).ram.allocateKernelPage.1 ≠ 0 := by
  rw [ram_free]
  intro hzero
  have hfrees := Ram.frees_freePage (r := m.ram) hx
  exact ((hfrees.taken x).mp ((Ram.allocateKernelPage_eq_zero hzero).2 x hx)).2 rfl

/-- What a call finds in a slot. -/
inductive Finds (m : Machine) (p : Pid) (n : Nat) : Prop
  | unused (hd : m.descriptor p n = .unused) (hfile : m.files p n = 0) : Finds m p n
  | opened (type : ResourceType) (x : Nat) (hd : m.descriptor p n = .opened type)
      (hfile : m.files p n ≠ 0) (hx : IsPage x)
      (hobject : m.ram.resourceObject (m.files p n) = x + vaStart)
      (hcheck : ∀ type', m.fatObject (x + vaStart) type' =
        if type = type' then .ok () else .error .type) : Finds m p n
  | closed (hd : m.descriptor p n = .closed) (hfile : m.files p n ≠ 0)
      (hobject : m.ram.resourceObject (m.files p n) = 0) : Finds m p n

theorem Owned.finds (h : m.Owned) (hp : p < m.nProcesses) {n : Nat} (hn : n < maxFilesPerProcess) :
    m.Finds p n := by
  cases h.slot p hp n hn with
  | unused hd hfile => exact .unused hd hfile
  | opened type g x hd hfile hobject htype =>
      have hx : m.ram.Taken x := h.taken (.object p n) x ⟨hp, hn, ⟨type, hd⟩, hobject⟩
      refine .opened type x hd ?_ hx.isPage hobject fun type' => ?_
      · rw [hfile]
        exact kernelAddress_ne_zero g
      · rw [fatObject_of_ne (kernelAddress_ne_zero x), Nat.add_sub_cancel, htype]
        exact if_congr Option.some_inj rfl rfl
  | closed g hd hfile hobject =>
      refine .closed hd ?_ hobject
      rw [hfile]
      exact kernelAddress_ne_zero g

theorem safe_range (hrange : ¬ (0 ≤ fd ∧ fd < maxFilesPerProcess)) :
    m.Safe p fd a ↔ a.Admits none := by
  have hslot := slot_of_range (m := m) (p := p) hrange
  cases a with
  | closeFile =>
      refine iff_of_true (safe_of_error fun error _ => if_pos ?_) (.inl rfl)
      omega
  | writeFile =>
      refine iff_of_false (not_safe (e := .index) ?_) nofun
      simp only [call, Access.call, writeFile, hslot, error_bind]
  | readFile =>
      refine iff_of_false (not_safe (e := .index) ?_) nofun
      simp only [call, Access.call, readFile, hslot, error_bind]
  | getNextEntry =>
      refine iff_of_false (not_safe (e := .index) ?_) nofun
      simp only [call, Access.call, getNextEntry, hslot, error_bind]

section Slot

variable {n : Nat}

theorem safe_unused (hn : n < maxFilesPerProcess) (hfile : m.files p n = 0) :
    m.Safe p n a ↔ a.Admits (some .unused) := by
  have hslot : m.slot p n = .ok 0 := hfile ▸ slot_of_lt hn
  cases a with
  | closeFile =>
      refine iff_of_false (not_safe (e := .null) ?_) nofun
      simp only [call, Access.call, closeFile, if_neg (not_range hn), hslot, ok_bind, deref_zero,
        error_bind]
  | writeFile =>
      refine iff_of_true (safe_of_error fun error _ => ?_) (.inl rfl)
      simp only [call, Access.call, writeFile, hslot, ok_bind]
      rfl
  | readFile =>
      refine iff_of_false (not_safe (e := .null) ?_) nofun
      simp only [call, Access.call, readFile, hslot, ok_bind, deref_zero, error_bind]
  | getNextEntry =>
      refine iff_of_false (not_safe (e := .null) ?_) nofun
      simp only [call, Access.call, getNextEntry, hslot, ok_bind, deref_zero, error_bind]

theorem safe_closed (hn : n < maxFilesPerProcess) (hfile : m.files p n ≠ 0)
    (hobject : m.ram.resourceObject (m.files p n) = 0) :
    m.Safe p n a ↔ a.Admits (some .closed) := by
  have hslot : m.slot p n = .ok (m.files p n) := slot_of_lt hn
  have hderef := deref_of_ne hfile
  have hnull : m.fatObject 0 .file = .error .null := rfl
  cases a with
  | closeFile =>
      refine iff_of_false (not_safe (e := .null) ?_) nofun
      simp only [call, Access.call, closeFile, if_neg (not_range hn), hslot, ok_bind, hderef, hobject,
        hnull, error_bind]
  | writeFile =>
      refine iff_of_false (not_safe (e := .null) ?_) nofun
      simp only [call, Access.call, writeFile, hslot, ok_bind, if_neg hfile, hobject, hnull,
        error_bind]
  | readFile =>
      refine iff_of_false (not_safe (e := .null) ?_) nofun
      simp only [call, Access.call, readFile, hslot, ok_bind, hderef, hobject, hnull, error_bind]
  | getNextEntry =>
      refine iff_of_true (safe_of_error fun error _ => ?_) (.inl rfl)
      simp only [call, Access.call, getNextEntry, hslot, ok_bind, hderef, hobject]
      rfl

/-- A close of an open file finds a page for its new `FatResource`. -/
theorem closeFile_opened (hn : n < maxFilesPerProcess) (hfile : m.files p n ≠ 0) {x : Nat}
    (hx : IsPage x) (hobject : m.ram.resourceObject (m.files p n) = x + vaStart)
    (hcheck : m.fatObject (x + vaStart) .file = .ok ()) (error : Int) :
    ∃ result, m.closeFile p n error = .ok result := by
  by_cases herror : error ≠ 0
  · refine ⟨(error, m), ?_⟩
    simp only [closeFile, if_neg (not_range hn), slot_of_lt hn, ok_bind, deref_of_ne hfile, hobject,
      hcheck, if_pos herror]
    rfl
  · refine ⟨(0, ?_), ?_⟩
    rotate_left
    · simp only [closeFile, if_neg (not_range hn), slot_of_lt hn, ok_bind, deref_of_ne hfile, hobject,
        hcheck, if_neg herror, allocate, deref_of_ne (allocate_free hx)]
      rfl

theorem safe_opened (hn : n < maxFilesPerProcess) {type : ResourceType} {x : Nat}
    (hd : m.descriptor p n = .opened type) (hfile : m.files p n ≠ 0) (hx : IsPage x)
    (hobject : m.ram.resourceObject (m.files p n) = x + vaStart)
    (hcheck : ∀ type', m.fatObject (x + vaStart) type' =
      if type = type' then .ok () else .error .type) :
    m.Safe p n a ↔ a.Admits (some (.opened type)) := by
  have hslot : m.slot p n = .ok (m.files p n) := slot_of_lt hn
  have hderef := deref_of_ne hfile
  have hne := kernelAddress_ne_zero x
  by_cases htype : type = a.type
  · subst htype
    have hgood : m.fatObject (x + vaStart) a.type = .ok () := (hcheck a.type).trans (if_pos rfl)
    refine iff_of_true (safe_of_open hn hfile hd fun error nextError => ?_) ?_
    · cases a with
      | closeFile => exact closeFile_opened hn hfile hx hobject hgood error
      | writeFile =>
          refine ⟨(error, m), ?_⟩
          simp only [call, Access.call, writeFile, hslot, ok_bind, if_neg hfile, hobject]
          rw [show m.fatObject (x + vaStart) .file = .ok () from hgood]
          rfl
      | readFile =>
          refine ⟨(error, m), ?_⟩
          simp only [call, Access.call, readFile, hslot, ok_bind, hderef, hobject]
          rw [show m.fatObject (x + vaStart) .file = .ok () from hgood]
          rfl
      | getNextEntry =>
          refine ⟨(if error ≠ 0 then -1 else if nextError ≠ 0 then -1 else 0, m), ?_⟩
          simp only [call, Access.call, getNextEntry, hslot, ok_bind, hderef, hobject, if_neg hne]
          rw [show m.fatObject (x + vaStart) .folder = .ok () from hgood, ok_bind]
          split
          next => rfl
          next => split <;> rfl
    · cases a <;> first | exact rfl | exact .inr rfl
  · have hbad : m.fatObject (x + vaStart) a.type = .error .type :=
      (hcheck a.type).trans (if_neg htype)
    refine iff_of_false (not_safe (e := .type) ?_) ?_
    · cases a with
      | closeFile =>
          simp only [call, Access.call, closeFile, if_neg (not_range hn), hslot, ok_bind, hderef,
            hobject]
          rw [show m.fatObject (x + vaStart) .file = .error .type from hbad, error_bind]
      | writeFile =>
          simp only [call, Access.call, writeFile, hslot, ok_bind, if_neg hfile, hobject]
          rw [show m.fatObject (x + vaStart) .file = .error .type from hbad, error_bind]
      | readFile =>
          simp only [call, Access.call, readFile, hslot, ok_bind, hderef, hobject]
          rw [show m.fatObject (x + vaStart) .file = .error .type from hbad, error_bind]
      | getNextEntry =>
          simp only [call, Access.call, getNextEntry, hslot, ok_bind, hderef, hobject, if_neg hne]
          rw [show m.fatObject (x + vaStart) .folder = .error .type from hbad, error_bind]
    · cases a <;> simpa [Access.Admits, Access.type] using htype

end Slot

/-! ## Every state -/

/-- A call is safe exactly when it is ready for the history of its descriptor. -/
theorem safe_iff (h : m.Proceeds) (hp : p < m.nProcesses) (fd : Int) (a : Access) :
    m.Safe p fd a ↔ a.Admits (m.history p fd) := by
  by_cases hrange : 0 ≤ fd ∧ fd < maxFilesPerProcess
  · obtain ⟨n, rfl⟩ : ∃ n : Nat, fd = n := ⟨fd.toNat, by omega⟩
    have hn : n < maxFilesPerProcess := by omega
    rw [history_of_lt hn]
    cases h.orderly.owned.finds hp hn with
    | unused hd hfile =>
        rw [hd]
        exact safe_unused hn hfile
    | opened type x hd hfile hx hobject hcheck =>
        rw [hd]
        exact safe_opened hn hd hfile hx hobject hcheck
    | closed hd hfile hobject =>
        rw [hd]
        exact safe_closed hn hfile hobject
  · rw [history_of_range hrange]
    exact safe_range hrange

set_option maxRecDepth 100000 in
/-- A user process that has opened a file reads it. -/
theorem safe_readFile :
    ∃ m, Transition.exec proceed (userProcess ++ [(1, .openFile 0)]) boot = some m ∧
      m.Safe 1 0 .readFile := by
  have hrun : ((Transition.exec proceed (userProcess ++ [(1, .openFile 0)]) boot).map fun m =>
      (decide (1 < m.nProcesses), m.history 1 0)) = some (true, some (.opened .file)) := by
    decide +kernel
  obtain ⟨m, hm, he⟩ := Option.map_eq_some_iff.mp hrun
  obtain ⟨hp, hd⟩ := Prod.mk.inj he
  exact ⟨m, hm, (safe_iff ⟨_, hm⟩ (of_decide_eq_true hp) 0 .readFile).mpr hd⟩

set_option maxRecDepth 100000 in
/-- A user process that has not opened a file closes, reads or lists the descriptor `0`, and
writes to the descriptor `-1`. -/
theorem not_safe_userProcess :
    ∃ m, Transition.exec proceed userProcess boot = some m ∧ 1 < m.nProcesses ∧
      ¬ m.Safe 1 0 .closeFile ∧ ¬ m.Safe 1 0 .readFile ∧ ¬ m.Safe 1 0 .getNextEntry ∧
      ¬ m.Safe 1 (-1) .writeFile := by
  have hrun : ((Transition.exec proceed userProcess boot).map fun m =>
      (decide (1 < m.nProcesses), m.files 1 0)) = some (true, 0) := by
    decide +kernel
  obtain ⟨m, hm, he⟩ := Option.map_eq_some_iff.mp hrun
  obtain ⟨hp, hfile⟩ := Prod.mk.inj he
  have hzero : ∀ a : Access, m.Safe 1 ((0 : Nat) : Int) a ↔ a.Admits (some .unused) := fun a =>
    safe_unused (by decide) hfile
  have hrange : ∀ a : Access, m.Safe 1 (-1) a ↔ a.Admits none := fun a => safe_range (by decide)
  refine ⟨m, hm, of_decide_eq_true hp, ?_, ?_, ?_, ?_⟩
  · exact fun hs => absurd ((hzero .closeFile).mp hs) nofun
  · exact fun hs => absurd ((hzero .readFile).mp hs) nofun
  · exact fun hs => absurd ((hzero .getNextEntry).mp hs) nofun
  · exact fun hs => absurd ((hrange .writeFile).mp hs) nofun

end Machine

end Demoos
