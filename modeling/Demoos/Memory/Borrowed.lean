import Demoos.Memory.Isolation

/-!
# What `exec` borrows

To read a file, `syscall_exec` opens it and takes a page.  It closes the file, which leaves the slot
in use, and it does not free the page.  So it has given back what it borrowed only when the file
could not be opened.
-/

namespace Demoos

open Function (update update_self update_of_ne)

namespace Machine

variable {m m' : Machine} {p : Pid} {fd g x y z : Nat} {r r' r'' : Ram} {answers : ExecAnswers}

/-- The process and the pages of all are as they were. -/
structure Unchanged (m : Machine) (p : Pid) (m' : Machine) : Prop where
  mm : m'.mm p = m.mm p
  files : m'.files p = m.files p
  descriptor : m'.descriptor p = m.descriptor p
  taken : ∀ g, m'.ram.Taken g ↔ m.ram.Taken g
  byte : ∀ g, m.ram.Taken g → m'.ram.byte g = m.ram.byte g

/-- The call has given back its slot, and its pages but the new user pages.  If it has failed, then
nothing has changed. -/
structure Clean (m : Machine) (p : Pid) (result : Int) (m' : Machine) : Prop where
  slots : ∀ fd < maxFilesPerProcess, m.files p fd = 0 → m'.files p fd = 0
  pages : ∀ g, m'.ram.Taken g → m.ram.Taken g ∨
    ∃ i < (m'.mm p).nUserPages, ((m'.mm p).userPages i).physicalAddress = g
  failed : result = -1 → m.Unchanged p m'

theorem Unchanged.clean (h : m.Unchanged p m') (result : Int) : m.Clean p result m' where
  slots fd _ hfree := by rw [h.files, hfree]
  pages g hg := .inl ((h.taken g).mp hg)
  failed _ := h

theorem Unchanged.refl (m : Machine) (p : Pid) : m.Unchanged p m :=
  ⟨rfl, rfl, rfl, fun _ => .rfl, fun _ _ => rfl⟩

/-- A page is taken and freed again. -/
theorem unchanged_free (hx : m.ram.Takes x r) :
    m.Unchanged p ({ m with ram := r }.free (x + vaStart)) := by
  have hfrees := Ram.frees_freePage (r := r) hx.isPage
  refine ⟨rfl, rfl, rfl, fun g => ?_, fun g hg => ?_⟩
  · rw [ram_free, hfrees.taken, hx.taken]
    constructor
    · rintro ⟨hg | rfl, hne⟩
      · exact hg
      · exact absurd rfl hne
    · exact fun hg => ⟨.inl hg, fun he => hx.free (he ▸ hg)⟩
  · have hne : g ≠ x := fun he => hx.free (he ▸ hg)
    rw [ram_free, hfrees.byte, update_of_ne hne, hx.byte, update_of_ne hne]

/-! ## The slot -/

theorem files_buffered :
    (m.buffered p answers fd x y z r r').files p fd = y + vaStart := files_opened.trans (if_pos rfl)

theorem Buffers.files_ne_zero (hb : m.Buffers p answers fd z m') : m'.files p fd ≠ 0 := by
  obtain ⟨x, y, r, r', r'', _, _, _, rfl⟩ := hb.taken
  rw [files_buffered]
  exact kernelAddress_ne_zero y

theorem Closes.files_ne_zero {error result : Int} (hclose : m.Closes p fd error result m')
    (hfd : fd < maxFilesPerProcess) (hfile : m.files p fd ≠ 0) : m'.files p fd ≠ 0 := by
  cases hclose with
  | range hrange =>
      have := Int.ofNat_lt.mpr hfd
      omega
  | failed => exact hfile
  | @closes n y r hn hfd' =>
      obtain rfl : fd = n := Int.ofNat_inj.mp hfd'
      unfold closed
      rw [files_setFile_self]
      exact kernelAddress_ne_zero y

/-- The slot is in use before it is closed and after that. -/
theorem Buffers.not_clean {error closeResult result : Int} {m₁ m₂ : Machine}
    (hb : m.Buffers p answers fd z m₁) (hclose : m₁.Closes p fd error closeResult m₂)
    (hfiles : m'.files = m₂.files) : ¬ m.Clean p result m' := by
  intro hclean
  have hzero := hclean.slots fd hb.lt hb.opened.2.2
  rw [hfiles] at hzero
  exact hclose.files_ne_zero hb.lt hb.files_ne_zero hzero

/-! ## Every call -/

variable {nArguments arguments : Nat} {trapFrame trapFrame' : Nat → Nat} {result : Int}

theorem Execs.clean
    (hexec : m.Execs p answers nArguments arguments trapFrame result trapFrame' m')
    (h : m.getFirstFreeFileDescriptor p = -1 ∨ answers.openError ≠ 0) : m.Clean p result m' := by
  have hopened : ∀ {fd z m₁}, ¬ m.Buffers p answers fd z m₁ := by
    intro fd z m₁ hb
    rcases h with hfull | herror
    · have hfree := hb.opened.2.1
      omega
    · exact herror hb.opened.1
  cases hexec with
  | unopened hopen =>
      generalize (-1 : Int) = code at hopen
      cases hopen with
      | full => exact (Unchanged.refl m p).clean _
      | failed _ _ hx => exact (unchanged_free hx).clean _
      | opens hfd hfree hfile herror =>
          rcases h with hfull | hne
          · omega
          · exact absurd herror hne
  | large hb => exact absurd hb hopened
  | execs hb => exact absurd hb hopened

theorem Execs.not_clean
    (hexec : m.Execs p answers nArguments arguments trapFrame result trapFrame' m')
    (hfree : m.getFirstFreeFileDescriptor p ≠ -1) (herror : answers.openError = 0) :
    ¬ m.Clean p result m' := by
  cases hexec with
  | unopened hopen =>
      generalize hcode : (-1 : Int) = code at hopen
      cases hopen with
      | full hfull => exact absurd (hcode ▸ hfull) hfree
      | failed _ hne => exact absurd herror hne
      | opens => omega
  | large hb hclose => exact hb.not_clean hclose rfl
  | execs hb hclose _ hreplace =>
      obtain ⟨_, _, _, _, _, _, _, _, _, _, rfl⟩ := hreplace.replaced
      exact hb.not_clean hclose rfl

/-- The call gives back what it has borrowed when it has not opened its file. -/
theorem exec_clean_iff
    (hexec : m.syscallExec p answers trapFrame nArguments arguments = .ok (result, trapFrame', m')) :
    m.Clean p result m' ↔ m.getFirstFreeFileDescriptor p = -1 ∨ answers.openError ≠ 0 := by
  have hcases := syscallExec_cases hexec
  refine ⟨fun hclean => ?_, hcases.clean⟩
  by_contra hopened
  obtain ⟨hfree, herror⟩ := not_or.mp hopened
  exact hcases.not_clean hfree (not_not.mp herror) hclean

set_option maxRecDepth 100000 in
/-- A user process executes a file that is not there, or one that is. -/
theorem exec_userProcess (openError : Int) (h : openError = 0 ∨ openError = -1) :
    ∃ m result trapFrame m', Transition.exec proceed userProcess boot = some m ∧
      m.syscallExec 1 ⟨openError, [1, 2, 3], 0⟩ (fun _ => 0) 0 0 = .ok (result, trapFrame, m') ∧
      m.getFirstFreeFileDescriptor 1 ≠ -1 := by
  have hrun : ((Transition.exec proceed userProcess boot).map fun m =>
      ((m.syscallExec 1 ⟨openError, [1, 2, 3], 0⟩ (fun _ => 0) 0 0).toOption.isSome,
        decide (m.getFirstFreeFileDescriptor 1 ≠ -1))) = some (true, true) := by
    rcases h with rfl | rfl <;> decide +kernel
  obtain ⟨m, hm, he⟩ := Option.map_eq_some_iff.mp hrun
  obtain ⟨hok, hfree⟩ := Prod.mk.inj he
  cases hexec : m.syscallExec 1 ⟨openError, [1, 2, 3], 0⟩ (fun _ => 0) 0 0 with
  | error e =>
      rw [hexec] at hok
      exact absurd hok nofun
  | ok x => exact ⟨m, x.1, x.2.1, x.2.2, hm, hexec, of_decide_eq_true hfree⟩

theorem clean_unopened : ∃ m result trapFrame m',
    Transition.exec proceed userProcess boot = some m ∧
    m.syscallExec 1 ⟨-1, [1, 2, 3], 0⟩ (fun _ => 0) 0 0 = .ok (result, trapFrame, m') ∧
    m.Clean 1 result m' := by
  obtain ⟨m, result, trapFrame, m', hm, hexec, _⟩ := exec_userProcess (-1) (.inr rfl)
  exact ⟨m, result, trapFrame, m', hm, hexec, (exec_clean_iff hexec).mpr (.inr (by decide))⟩

/-- The slot of the file and the buffer are still in use. -/
theorem not_clean_opened : ∃ m result trapFrame m',
    Transition.exec proceed userProcess boot = some m ∧
    m.syscallExec 1 ⟨0, [1, 2, 3], 0⟩ (fun _ => 0) 0 0 = .ok (result, trapFrame, m') ∧
    ¬ m.Clean 1 result m' := by
  obtain ⟨m, result, trapFrame, m', hm, hexec, hfree⟩ := exec_userProcess 0 (.inl rfl)
  exact ⟨m, result, trapFrame, m', hm, hexec, (syscallExec_cases hexec).not_clean hfree rfl⟩

end Machine

end Demoos
