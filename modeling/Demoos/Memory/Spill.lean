import Demoos.Memory.Image

/-!
# A file of more than a page

Three pages are free, and the page behind them is somebody's.  `exec` opens the file with the first
two of them and has its buffer in the third, so it reads the second page of the file over
the page of the other.
-/

namespace Demoos

open Function (update update_self update_of_ne)

namespace Ram

variable {r : Ram} {i : Nat}

/-- The allocator takes the first page that is free. -/
theorem takes_firstFree (h : firstFree r.memoryPages nPages 0 = some i) :
    ∃ r', r.allocateKernelPage = (pageAddress i + vaStart, r') ∧ r.Takes (pageAddress i) r' ∧
      r'.memoryPages = update r.memoryPages i true := by
  have hpage : r.getFreePage = (pageAddress i, { r.memzero (pageAddress i) with
      memoryPages := update r.memoryPages i true }) := by
    unfold getFreePage
    rw [h]
    rfl
  have hne : r.getFreePage.1 ≠ 0 := by
    rw [hpage]
    unfold pageAddress lowMemory
    omega
  have hx := takes_getFreePage hne
  refine ⟨r.getFreePage.2, ?_, ?_, ?_⟩
  · rw [allocateKernelPage, if_neg hne, hpage]
  · rw [hpage] at hx ⊢
    exact hx
  · rw [hpage]

end Ram

namespace Machine

variable {m m₁ m₂ : Machine} {p : Pid} {fd g x y : Nat} {r r' : Ram}

/-! ## A call that works -/

theorem openFile_eq {a b : Nat} (hfd : m.getFirstFreeFileDescriptor p = fd)
    (hx : m.ram.allocateKernelPage = (a, r)) (ha : a ≠ 0)
    (hy : r.allocateKernelPage = (b, r')) (hb : b ≠ 0) :
    m.openFile p 0 = .ok ((fd : Int), { m with
      ram := r'.setResource b ResourceType.file.value a
      object := update m.object (a - vaStart) (some .file) }.setFile p fd b (.opened .file)) := by
  have hne : (fd : Int) ≠ -1 := by omega
  simp only [openFile, openResource, hfd, if_neg hne, allocate, hx, hy, ok_bind, deref_of_ne ha,
    deref_of_ne hb, ne_eq, not_true_eq_false, if_false]
  rfl

theorem openFile_ok (hfd : m.getFirstFreeFileDescriptor p = fd)
    (hx : m.ram.allocateKernelPage = (x + vaStart, r))
    (hy : r.allocateKernelPage = (y + vaStart, r')) :
    m.openFile p 0 = .ok ((fd : Int), m.opened .file p fd x y r') := by
  rw [openFile_eq hfd hx (kernelAddress_ne_zero x) hy (kernelAddress_ne_zero y), Nat.add_sub_cancel]
  rfl

/-- The calls on a slot with a `File`. -/
theorem readFile_eq {a : Nat} (hfd : fd < maxFilesPerProcess) (hfile : m.files p fd ≠ 0)
    (hobject : m.ram.resourceObject (m.files p fd) = a) (hcheck : m.fatObject a .file = .ok ())
    (error : Int) : m.readFile p fd error = .ok (error, m) := by
  simp only [readFile, slot_of_lt hfd, ok_bind, deref_of_ne hfile, hobject, hcheck]
  rfl

theorem closeFile_error {a : Nat} (hfd : fd < maxFilesPerProcess) (hfile : m.files p fd ≠ 0)
    (hobject : m.ram.resourceObject (m.files p fd) = a) (hcheck : m.fatObject a .file = .ok ())
    {error : Int} (herror : error ≠ 0) : m.closeFile p fd error = .ok (error, m) := by
  simp only [closeFile, if_neg (not_range hfd), slot_of_lt hfd, ok_bind, deref_of_ne hfile, hobject,
    hcheck, if_pos herror]
  rfl

/-- The call without arguments, when its library calls work. -/
theorem syscallExec_ok (answers : ExecAnswers) (trapFrame : Nat → Nat) {a : Nat} {code : Int}
    (hopen : m.openFile p answers.openError = .ok ((fd : Int), m₁))
    (hz : m₁.ram.allocateKernelPage = (a, r)) (ha : a ≠ 0)
    (hread : ({ m₁ with ram := r } : Machine).readFile p fd 0 = .ok (0, { m₁ with ram := r }))
    (hclose : ({ m₁ with ram := r.store (a - vaStart) answers.bytes } : Machine).closeFile p fd
      answers.closeError = .ok (code, m₂))
    (hsize : answers.bytes.length ≤ pageSize * 15) :
    ∃ trapFrame' m', m.syscallExec p answers trapFrame 0 0 = .ok (0, trapFrame', m') ∧
      m₂.Replaces p (a - vaStart) answers.bytes.length 0 0 trapFrame trapFrame' m' := by
  have hne : (fd : Int) ≠ -1 := by omega
  obtain ⟨mm, r', hfree⟩ : ∃ mm r', freeUserPages (m₂.mm p) m₂.ram = (mm, r') := ⟨_, _, rfl⟩
  refine ⟨_, _, ?_, ⟨[], mm, r', _, _, _, rfl, hfree, rfl, rfl, rfl⟩⟩
  simp only [syscallExec, hopen, ok_bind, if_neg hne, allocate, hz, hread, deref_of_ne ha]
  rw [show answers.file.take (pageSize * 16) = answers.bytes from rfl, hclose, ok_bind]
  dsimp only
  rw [if_neg (Nat.not_lt.mpr hsize)]
  simp only [saveArguments, ok_bind, hfree, pushArguments]
  rfl

/-! ## The page behind the buffer -/

/-- The pages up to number 20 are taken, and those behind it are free. -/
structure Room (m : Machine) : Prop where
  taken : ∀ i < 21, m.ram.memoryPages i = true
  free : ∀ i < 40, 21 ≤ i → m.ram.memoryPages i = false

/-- Somebody has taken page number 24, and has put `b` into it. -/
def crowded (m : Machine) (b : Byte) : Machine :=
  { m with ram := { m.ram with
      memoryPages := update m.ram.memoryPages 24 true
      byte := update m.ram.byte (pageAddress 24) fun _ => b } }

theorem lt_nPages {i : Nat} (hi : i < 40) : i < nPages := Nat.lt_trans hi (by decide +kernel)

theorem Room.not_taken (h : m.Room) {i : Nat} (hi : i < 40) (hle : 21 ≤ i) :
    ¬ m.ram.Taken (pageAddress i) := by
  rw [Ram.taken_iff (lt_nPages hi), h.free i hi hle]
  nofun

theorem Room.alike (h : m.Room) (howned : m.Owned) (b : Byte) : m.Alike (m.crowded b) := by
  refine howned.write (r := (m.crowded b).ram) m.object (fun g hg => ?_) (fun u g hu => ?_)
    fun _ _ _ => rfl
  · refine (Ram.taken_update (lt_nPages (by decide)) true _).mpr ?_
    split
    next => rfl
    next => exact hg
  · have hne : g ≠ pageAddress 24 := fun he =>
      h.not_taken (by decide) (by decide) (he ▸ howned.taken u g hu)
    exact update_of_ne hne _ _

theorem firstFree_eq {memoryPages : Nat → Bool} {i n : Nat}
    (hbefore : ∀ j < i, memoryPages j = true) (hfree : memoryPages i = false) (hn : i < n) :
    firstFree memoryPages n 0 = some i := by
  cases hf : firstFree memoryPages n 0 with
  | none =>
      have htaken := Ram.firstFree_none hf (Nat.zero_le i) (by omega)
      exact absurd (hfree.symm.trans htaken) nofun
  | some j =>
      obtain ⟨_, _, hj, hall⟩ := Ram.firstFree_some hf
      rcases Nat.lt_trichotomy i j with hlt | rfl | hgt
      · exact absurd (hfree.symm.trans (hall i (Nat.zero_le i) hlt)) nofun
      · rfl
      · exact absurd (hj.symm.trans (hbefore j hgt)) nofun

/-- The next page to be taken is number `i`. -/
def Next (r : Ram) (i : Nat) : Prop :=
  (∀ j < i, r.memoryPages j = true) ∧ ∀ j < 24, i ≤ j → r.memoryPages j = false

theorem Next.takes {i : Nat} (h : Next r i) (hi : i < 24) :
    ∃ r', r.allocateKernelPage = (pageAddress i + vaStart, r') ∧ r.Takes (pageAddress i) r' ∧
      Next r' (i + 1) := by
  obtain ⟨hbefore, hfree⟩ := h
  obtain ⟨r', hr, htakes, hpages⟩ := Ram.takes_firstFree
    (firstFree_eq hbefore (hfree i hi (Nat.le_refl i)) (lt_nPages (by omega)))
  refine ⟨r', hr, htakes, fun j hj => ?_, fun j hj hle => ?_⟩
  · rw [hpages]
    rcases Nat.lt_succ_iff_lt_or_eq.mp hj with hlt | rfl
    · rw [update_of_ne (by omega)]
      exact hbefore j hlt
    · exact update_self ..
  · rw [hpages, update_of_ne (by omega)]
    exact hfree j hj (by omega)

theorem Room.next (h : m.Room) (b : Byte) : Next (m.crowded b).ram 21 := by
  refine ⟨fun j hj => ?_, fun j hj hle => ?_⟩
  · exact (update_of_ne (by omega) _ _).trans (h.taken j hj)
  · exact (update_of_ne (by omega) _ _).trans (h.free j (by omega) hle)

theorem uses_opened {type : ResourceType} {u : Use} (h : m.Owned) (hx : m.ram.Takes x r)
    (hy : r.Takes y r') (hu : (m.opened type p fd x y r').Uses u g) :
    m.Uses u g ∨ g = x ∨ g = y := by
  rcases uses_setFile hu with ⟨_, _, hold⟩ | ⟨_, _, he⟩ | ⟨_, _, he⟩
  · exact .inl (((h.alike_opened type hx hy).uses u g).mp hold)
  · exact .inr (.inr (Nat.add_right_cancel he).symm)
  · have hobject : (r'.setResource (y + vaStart) type.value (x + vaStart)).resourceObject
        (y + vaStart) = x + vaStart := resourceObject_setResource (lt_kernelAddress hx.isPage)
    exact .inr (.inl (Nat.add_right_cancel (hobject.symm.trans he)).symm)

theorem pageAddress_le {i j : Nat} (h : i < j) : pageAddress i + pageSize ≤ pageAddress j := by
  have := Nat.mul_le_mul_right pageSize (Nat.succ_le_of_lt h)
  unfold pageAddress
  rw [Nat.succ_mul] at this
  omega

/-- The file is read over the page of the other, and over no page that is in use. -/
theorem Room.outside (h : m.Room) (howned : m.Owned) {bytes : List Byte} {u : Use}
    (hlimit : bytes.length ≤ pageSize * 15)
    (hu : m.Uses u g ∨ g = pageAddress 21 ∨ g = pageAddress 22) :
    Outside (pageAddress 23) bytes g := by
  rcases hu with hu | rfl | rfl
  · obtain ⟨i, hi, rfl, htaken⟩ := howned.taken u g hu
    by_cases hlow : i < 23
    · exact .inl (pageAddress_le hlow)
    · have hhigh : 40 ≤ i := Nat.le_of_not_lt fun hlt => by
        rw [h.free i hlt (by omega)] at htaken
        exact absurd htaken nofun
      have := Nat.mul_le_mul_right pageSize hhigh
      refine .inr ?_
      unfold pageAddress pageSize at *
      omega
  · exact .inl (pageAddress_le (by decide))
  · exact .inl (pageAddress_le (by decide))

theorem byte_store_next {bytes : List Byte} (hlen : pageSize < bytes.length) {i : Nat} :
    (r.store (pageAddress i) bytes).byte (pageAddress (i + 1)) 0 = bytes[pageSize] := by
  have hindex : pageAddress (i + 1) + 0 - pageAddress i = pageSize := by
    unfold pageAddress
    rw [Nat.succ_mul]
    omega
  have hle : pageAddress i ≤ pageAddress (i + 1) + 0 := by
    unfold pageAddress
    rw [Nat.succ_mul]
    omega
  unfold Ram.store
  dsimp only
  rw [if_pos ⟨hle, by decide⟩, hindex, List.getElem?_eq_getElem hlen]
  rfl

theorem resourceObject_of_byte {r r₁ : Ram} (hy : r₁.byte y = r.byte y)
    (hobject : r.resourceObject (y + vaStart) = x + vaStart) :
    r₁.resourceObject (y + vaStart) = x + vaStart := by
  rw [← hobject]
  refine resourceObject_congr ?_
  rw [Nat.add_sub_cancel, hy]

/-- The read and the close work on the file that has been opened. -/
theorem opened_ready (hx : m.ram.Takes x r) {r₁ : Ram}
    (hy : r₁.byte y = (m.opened .file p fd x y r').ram.byte y) :
    ({ m.opened .file p fd x y r' with ram := r₁ } : Machine).files p fd ≠ 0 ∧
    r₁.resourceObject (({ m.opened .file p fd x y r' with ram := r₁ } : Machine).files p fd) =
      x + vaStart ∧
    ({ m.opened .file p fd x y r' with ram := r₁ } : Machine).fatObject (x + vaStart) .file =
      .ok () := by
  have hfile : ({ m.opened .file p fd x y r' with ram := r₁ } : Machine).files p fd = y + vaStart :=
    files_opened.trans (if_pos rfl)
  have hobject : ({ m.opened .file p fd x y r' with ram := r₁ } : Machine).object x = some .file :=
    update_self ..
  refine ⟨?_, ?_, ?_⟩
  · rw [hfile]
    exact kernelAddress_ne_zero y
  · rw [hfile]
    exact resourceObject_of_byte hy (resourceObject_setResource (lt_kernelAddress hx.isPage))
  · rw [fatObject_of_ne (kernelAddress_ne_zero x), Nat.add_sub_cancel, hobject, if_pos rfl]

/-- The call has the second page of the file in the page of the other when it begins to
copy. -/
theorem Room.exec (h : m.Room) (horderly : m.Orderly) (hfree : m.getFirstFreeFileDescriptor p = 0)
    (b : Byte) {file : List Byte} (hlen : pageSize < (⟨0, file, 1⟩ : ExecAnswers).bytes.length)
    (hlimit : (⟨0, file, 1⟩ : ExecAnswers).bytes.length ≤ pageSize * 15) (trapFrame : Nat → Nat) :
    ∃ trapFrame' m' m₂,
      (m.crowded b).syscallExec p ⟨0, file, 1⟩ trapFrame 0 0 = .ok (0, trapFrame', m') ∧
      m₂.Orderly ∧ m.SameProcesses m₂ ∧ m₂.Others p (pageAddress 24) ∧
      m₂.ram.byte (pageAddress 24) 0 = (⟨0, file, 1⟩ : ExecAnswers).bytes[pageSize] ∧
      m₂.Replaces p (pageAddress 23) (⟨0, file, 1⟩ : ExecAnswers).bytes.length 0 0 trapFrame
        trapFrame' m' := by
  have halike := h.alike horderly.owned b
  obtain ⟨r, hr, hx, hnext⟩ := (h.next b).takes (by decide)
  obtain ⟨r', hr', hy, hnext'⟩ := hnext.takes (by decide)
  have hnext₁ : Next ((m.crowded b).opened .file p 0 (pageAddress 21) (pageAddress 22) r').ram 23 :=
    hnext'
  obtain ⟨r'', hr'', hz, _⟩ := hnext₁.takes (by decide)
  have hslot : (m.crowded b).getFirstFreeFileDescriptor p = ((0 : Nat) : Int) := hfree
  have hopen := openFile_ok hslot hr hr'
  have htaken : ((m.crowded b).opened .file p 0 (pageAddress 21) (pageAddress 22) r').ram.Taken
      (pageAddress 22) := (taken_opened hx hy).mpr (.inr (.inr rfl))
  have hne : pageAddress 22 ≠ pageAddress 23 := fun he => absurd (pageAddress_inj he) (by decide)
  have hbyte : r''.byte (pageAddress 22) =
      ((m.crowded b).opened .file p 0 (pageAddress 21) (pageAddress 22) r').ram.byte
        (pageAddress 22) := by
    rw [hz.byte, update_of_ne hne]
  obtain ⟨hfile, hobject, hcheck⟩ := opened_ready hx hbyte
  have hread := readFile_eq (by decide) hfile hobject hcheck 0
  have hbyte' : (r''.store (pageAddress 23) (⟨0, file, 1⟩ : ExecAnswers).bytes).byte
      (pageAddress 22) = ((m.crowded b).opened .file p 0 (pageAddress 21) (pageAddress 22) r').ram.byte
        (pageAddress 22) := by
    rw [byte_store (.inl (pageAddress_le (by decide))), hbyte]
  obtain ⟨hfile', hobject', hcheck'⟩ := opened_ready hx hbyte'
  have hclose := closeFile_error (by decide) hfile' hobject' hcheck' (show (1 : Int) ≠ 0 by decide)
  rw [← Nat.add_sub_cancel (n := pageAddress 23) (m := vaStart)] at hclose
  obtain ⟨trapFrame', m', hexec, hreplace⟩ := syscallExec_ok ⟨0, file, 1⟩ trapFrame hopen
    hr'' (kernelAddress_ne_zero _) hread hclose hlimit
  rw [Nat.add_sub_cancel] at hreplace
  have howned : ((m.crowded b).buffered p ⟨0, file, 1⟩ 0 (pageAddress 21) (pageAddress 22)
      (pageAddress 23) r' r'').Owned := halike.owned.buffered hx hy hz fun u g hu =>
    h.outside horderly.owned hlimit ((uses_opened halike.owned hx hy hu).imp (halike.uses u g).mp id)
  have hsane : r''.corrupted = false :=
    (hz.flags.2.trans (hy.flags.2.trans hx.flags.2)).trans horderly.sane
  have hother : (m.crowded b).ram.Taken (pageAddress 24) :=
    (Ram.taken_update (lt_nPages (by decide)) true _).mpr (by rw [if_pos rfl])
  refine ⟨trapFrame', m', _, hexec, ⟨howned, hsane⟩, ⟨rfl, rfl, rfl⟩,
    ⟨(taken_buffered hx hy hz).mpr (.inl hother), fun u hu hspace => ?_⟩, byte_store_next hlen,
    hreplace⟩
  have hsame : m.SameProcesses ((m.crowded b).buffered p ⟨0, file, 1⟩ 0 (pageAddress 21)
      (pageAddress 22) (pageAddress 23) r' r'') := ⟨rfl, rfl, rfl⟩
  have hold : m.Uses u (pageAddress 24) := (hsame.uses_iff hspace).mp hu
  exact h.not_taken (by decide) (by decide) (horderly.owned.taken u _ hold)

/-- A user process in a machine where the first pages are taken. -/
theorem exists_room : ∃ m, Transition.exec proceed userProcess boot = some m ∧ m.Room ∧
    1 < m.nProcesses ∧ m.userMode 1 = true ∧ (m.mm 1).nUserPages = maxProcessPages ∧
    m.getFirstFreeFileDescriptor 1 = 0 := by
  have hrun : ((Transition.exec proceed userProcess boot).map fun m =>
      (decide (∀ i : Nat, i < 21 → m.ram.memoryPages i = true),
        decide (∀ i : Nat, i < 40 → 21 ≤ i → m.ram.memoryPages i = false),
        decide (1 < m.nProcesses ∧ m.userMode 1 = true ∧ (m.mm 1).nUserPages = maxProcessPages ∧
          m.getFirstFreeFileDescriptor 1 = 0))) = some (true, true, true) := by
    decide +kernel
  obtain ⟨m, hm, he⟩ := Option.map_eq_some_iff.mp hrun
  obtain ⟨htaken, he⟩ := Prod.mk.inj he
  obtain ⟨hfree, hprocess⟩ := Prod.mk.inj he
  exact ⟨m, hm, ⟨of_decide_eq_true htaken, of_decide_eq_true hfree⟩, of_decide_eq_true hprocess⟩

theorem ne_add_one (b : Byte) : b ≠ b + 1 := by
  intro he
  have hone : (1 : Byte) = 0 := by simpa using he.symm
  exact absurd hone (by decide)

theorem not_loadedBy {file : List Byte} (hlen : pageSize < file.length)
    (hlimit : file.length ≤ pageSize * 15) : ¬ LoadedBy file := by
  intro hall
  obtain ⟨m, hm, hroom, hp, hmode, hpages, hfree⟩ := exists_room
  have horderly : m.Orderly := Proceeds.orderly ⟨_, hm⟩
  have hbytes : (⟨0, file, 1⟩ : ExecAnswers).bytes = file :=
    List.take_of_length_le (hlimit.trans (by decide))
  -- The other has something else in his page than the file has in its second one.
  let b : Byte := file[pageSize] + 1
  obtain ⟨trapFrame', m', m₂, hexec, horderly₂, hsame, hother, hbyte, hreplace⟩ :=
    hroom.exec (p := 1) horderly hfree b (by rwa [hbytes]) (by rwa [hbytes]) fun _ => 0
  have halike := hroom.alike horderly.owned b
  obtain ⟨_, mm, _, _, r', _, _, hrenewed, _, rfl⟩ := hreplace.renewed horderly₂
    (by rw [hsame.nProcesses]; exact hp) (by rw [hsame.mm]; exact hpages)
  have hloads := hall (m.crowded b) _ 1 0 1 _ _ 0 0 ⟨halike.owned, horderly.sane⟩ hp hmode hpages hexec
  have hothers : (m.crowded b).Others 1 (pageAddress 24) := by
    refine ⟨(Ram.taken_update (lt_nPages (by decide)) true _).mpr (by rw [if_pos rfl]), ?_⟩
    intro u hu _
    exact hroom.not_taken (by decide) (by decide) (horderly.owned.taken u _ ((halike.uses u _).mp hu))
  have hforeign := congrFun (hloads.foreign _ hothers) 0
  have hkept := congrFun (hrenewed.unwritten _ hother) 0
  have hcrowded : (m.crowded b).ram.byte (pageAddress 24) 0 = b := by
    unfold crowded
    dsimp only
    rw [update_self]
  refine ne_add_one file[pageSize] ?_
  calc file[pageSize] = m₂.ram.byte (pageAddress 24) 0 := ?_
    _ = r'.byte (pageAddress 24) 0 := hkept.symm
    _ = (m.crowded b).ram.byte (pageAddress 24) 0 := hforeign
    _ = file[pageSize] + 1 := hcrowded
  rw [hbyte]
  simp only [hbytes]

/-- A file is loaded in every state of `memory_pages` when it fits into the buffer. -/
theorem loadedBy_iff {file : List Byte} (hlimit : file.length ≤ pageSize * 15) :
    LoadedBy file ↔ file.length ≤ pageSize := by
  constructor
  · intro hall
    exact Nat.le_of_not_lt fun hlen => not_loadedBy hlen hlimit hall
  · intro hsize m m' p openError closeError trapFrame trapFrame' nArguments arguments h hp _ hpages
      hexec
    have hfile : (⟨openError, file, closeError⟩ : ExecAnswers).file.length ≤ pageSize := hsize
    exact loads_of_small h hp hpages hfile hexec

theorem loadedBy_threeBytes : LoadedBy [1, 2, 3] := (loadedBy_iff (by decide)).mpr (by decide)

/-- A page of zeros and one more. -/
theorem not_loadedBy_zeros :
    (List.replicate (pageSize + 1) (0 : Byte)).length ≤ pageSize * 15 ∧
      ¬ LoadedBy (List.replicate (pageSize + 1) 0) := by
  have hlen : (List.replicate (pageSize + 1) (0 : Byte)).length = pageSize + 1 :=
    List.length_replicate
  have hlimit : pageSize + 1 ≤ pageSize * 15 := by decide
  refine ⟨hlen.trans_le hlimit, not_loadedBy ?_ (hlen.trans_le hlimit)⟩
  rw [hlen]
  exact Nat.lt_succ_self _

end Machine

end Demoos
