import Demoos.Memory.UserMemory

/-!
# The program that `exec` loads

`syscall_exec` reads up to sixteen pages of the file, but its buffer is one page.  A file of one
page gets to the new user pages, whatever `memory_pages` is like, because the buffer stays
taken while the old pages are freed.  What is behind the first page is written over the
pages behind the buffer, and these may belong to somebody.
-/

namespace Demoos

open Function (update update_self update_of_ne)

/-! ## No page is missing -/

/-- A page of a space that has its tables costs that page alone. -/
theorem Loading.flags {R : Nat → Prop} {b i : Nat} {source : Ram → Nat → Byte} {size : Nat}
    {r : Ram} {s : MmStruct × Ram × Nat} {t : Radix.Tree Nat} (h : Loading R b source size r i s t)
    (hi : i < maxProcessPages) (htable : ∃ g, t 3 0 = some g)
    (hpage : s.2.1.getFreePage.1 ≠ 0) :
    (Demoos.copyCodePage source size s i).2.1.corrupted = s.2.1.corrupted := by
  have hx := Ram.takes_getFreePage hpage
  have hlt : i < ptrsPerTable := Nat.lt_trans hi maxProcessPages_lt
  obtain ⟨g, hg⟩ := htable
  rw [← tableKey_low hlt (by decide : 3 < 4)] at hg
  unfold Demoos.copyCodePage
  rw [allocateUserPage_of_ne hpage, (h.space.tables.takes hx).mapPage_eq hg]
  dsimp only
  split
  next =>
    rw [Ram.relyOn_eq (by omega)]
    exact hx.flags.2
  next => exact hx.flags.2

/-- A process with all its pages gets as many again. -/
theorem Space.copyCode_sane {mm : MmStruct} {r : Ram} {t : Radix.Tree Nat} {R : Nat → Prop}
    (h : Space mm r t R maxProcessPages) (hn : mm.nUserPages = 0) (htable : ∃ g, t 3 0 = some g)
    (hspare : r.Spare maxProcessPages) (hsane : r.corrupted = false) (source : Ram → Nat → Byte)
    (size : Nat) : (Demoos.copyCode source size mm r).2.corrupted = false ∧
      (Demoos.copyCode source size mm r).1.nUserPages = maxProcessPages := by
  have hstart := h.loading hn (fun _ => htable) hspare source size
  have hrun : ∀ n ≤ maxProcessPages,
      ((List.range n).foldl (copyCodePage source size) (mm, r, 0)).2.1.corrupted = false := by
    intro n hle
    induction n with
    | zero => exact hsane
    | succ n ih =>
        have hbefore := ih (by omega)
        obtain ⟨t', hloading⟩ := hstart.run (by omega) hbefore
        rw [List.range_succ, List.foldl_append, List.foldl_cons, List.foldl_nil]
        generalize (List.range n).foldl (copyCodePage source size) (mm, r, 0) = s at *
        have hpage : s.2.1.getFreePage.1 ≠ 0 := fun hzero => by
          have hnone := hloading.spare.eq_zero (Ram.getFreePage_eq_zero hzero).2
          rcases hloading.progress with hn | ⟨hn, _⟩ <;> omega
        rw [hloading.flags hle (hloading.table (by decide)) hpage]
        exact hbefore
  have hsane' := hrun maxProcessPages (Nat.le_refl _)
  obtain ⟨t', hloading⟩ := hstart.run (Nat.le_refl _) hsane'
  refine ⟨hsane', hloading.progress.elim id fun hmissing => ?_⟩
  have hnone := hloading.spare.eq_zero hmissing.2.1
  exact Nat.le_antisymm hmissing.1 (Nat.le_of_sub_eq_zero hnone)

namespace Machine

variable {m m' m₁ m₂ : Machine} {p : Pid} {fd g x y z : Nat} {r r' r'' : Ram}
  {answers : ExecAnswers}

/-! ## The file in its buffer -/

theorem taken_buffered (hx : m.ram.Takes x r) (hy : r.Takes y r')
    (hz : (m.opened .file p fd x y r').ram.Takes z r'') :
    (m.buffered p answers fd x y z r' r'').ram.Taken g ↔ m.ram.Taken g ∨ g = x ∨ g = y ∨ g = z := by
  have htaken : (m.buffered p answers fd x y z r' r'').ram.Taken g ↔ r''.Taken g := .rfl
  rw [htaken, hz.taken, taken_opened hx hy]
  simp only [or_assoc]

theorem byte_buffered (hz : (m.opened .file p fd x y r').ram.Takes z r'')
    (hg : (m.opened .file p fd x y r').ram.Taken g) (hout : Outside z answers.bytes g) :
    (m.buffered p answers fd x y z r' r'').ram.byte g =
      (m.opened .file p fd x y r').ram.byte g := by
  have hne : g ≠ z := fun he => hz.free (he ▸ hg)
  refine (byte_store hout).trans ?_
  rw [hz.byte, update_of_ne hne]

theorem byte_store_self {bytes : List Byte} {i : Nat} (hi : i < pageSize)
    (hlen : i < bytes.length) : (r.store z bytes).byte z i = bytes[i] := by
  unfold Ram.store
  dsimp only
  rw [if_pos ⟨Nat.le_add_right _ _, hi⟩, Nat.add_sub_cancel_left, List.getElem?_eq_getElem hlen]
  rfl

theorem ram_closed : (m.closed p fd y r).ram = r.setResource (y + vaStart) 0 0 := rfl

/-- A close touches the page of its `File` and a free page. -/
theorem Closes.keeps {error result : Int} (hclose : m.Closes p fd error result m') (h : m.Owned)
    (hp : p < m.nProcesses) (hg : m.ram.Taken g)
    (hne : m.ram.resourceObject (m.files p fd) ≠ g + vaStart) :
    m'.ram.Taken g ∧ m'.ram.byte g = m.ram.byte g := by
  cases hclose with
  | range => exact ⟨hg, rfl⟩
  | failed => exact ⟨hg, rfl⟩
  | @closes n y r hn hfd hfile hobject _ _ hy =>
      obtain rfl : fd = n := Int.ofNat_inj.mp hfd
      obtain ⟨_, x, _, hx, huse⟩ := h.opened_of_object hp hn hfile hobject
      rw [hx] at hy hne ⊢
      have hfrees := Ram.frees_freePage (r := m.ram) (h.taken _ x huse).isPage
      have hgx : g ≠ x := fun he => hne (by rw [he])
      have hkept : (m.free (x + vaStart)).ram.Taken g := by
        rw [ram_free]
        exact (hfrees.taken g).mpr ⟨hg, hgx⟩
      obtain ⟨htaken, hbyte⟩ := takes_setResource hy 0 0 hkept
      rw [ram_closed]
      refine ⟨htaken, hbyte.trans ?_⟩
      rw [ram_free, hfrees.byte, update_of_ne hgx]

theorem Buffers.corrupted (hb : m.Buffers p answers fd z m₁) :
    m₁.ram.corrupted = m.ram.corrupted := by
  obtain ⟨x, y, r, r', r'', hx, hy, hz, rfl⟩ := hb.taken
  exact hz.flags.2.trans (hy.flags.2.trans hx.flags.2)

theorem Closes.corrupted {error result : Int} (hclose : m.Closes p fd error result m') :
    m'.ram.corrupted = m.ram.corrupted := by
  cases hclose with
  | range => rfl
  | failed => rfl
  | closes _ _ _ _ _ _ hy => exact hy.flags.2.trans (Ram.flags_freePage ..).2

theorem SameProcesses.uses_iff {u : Use} (h : m.SameProcesses m') (hu : u.OfSpace p) :
    m'.Uses u g ↔ m.Uses u g := by
  cases u with
  | table q i => rw [Uses, Uses, h.nProcesses, h.mm]
  | user q i => rw [Uses, Uses, h.nProcesses, h.mm]
  | _ => exact hu.elim

/-- The file is in the page `z`, which is taken, and the pages that were taken are as
they were. -/
structure Reads (m : Machine) (p : Pid) (z : Nat) (bytes : List Byte) (m₂ : Machine) : Prop where
  orderly : m₂.Orderly
  same : m.SameProcesses m₂
  keeps : ∀ g, m.ram.Taken g → m₂.ram.Taken g ∧ m₂.ram.byte g = m.ram.byte g
  buffer : m₂.Others p z
  source : ∀ i (hi : i < bytes.length), m₂.ram.byte z i = bytes[i]

theorem Buffers.reads (hb : m.Buffers p answers fd z m₁) {result : Int}
    (hclose : m₁.Closes p fd answers.closeError result m₂) (h : m.Orderly) (hp : p < m.nProcesses)
    (hsize : answers.bytes.length ≤ pageSize) : m.Reads p z answers.bytes m₂ := by
  have howned := hb.owned h.owned hsize
  have hp' : p < m₁.nProcesses := by
    rw [hb.sameProcesses.nProcesses]
    exact hp
  have hsame := hb.sameProcesses.trans hclose.sameProcesses
  have hsane : m₂.ram.corrupted = false := (hclose.corrupted.trans hb.corrupted).trans h.sane
  obtain ⟨x, y, r, r', r'', hx, hy, hz, rfl⟩ := hb.taken
  have hxy : x ≠ y := fun he => hy.free (he ▸ (hx.taken x).mpr (.inr rfl))
  have hopened : ∀ g, m.ram.Taken g ∨ g = x ∨ g = y → (m.opened .file p fd x y r').ram.Taken g :=
    fun g hg => (taken_opened hx hy).mpr hg
  have hin : ∀ g, (m.opened .file p fd x y r').ram.Taken g →
      Outside z answers.bytes g := fun g hg =>
    outside_of_ne hz.isPage hg.isPage (fun he => hz.free (he ▸ hg)) hsize
  -- What a close frees is the page of the `File`.
  have hobject : (m.buffered p answers fd x y z r' r'').ram.resourceObject
      ((m.buffered p answers fd x y z r' r'').files p fd) = x + vaStart := by
    rw [show (m.buffered p answers fd x y z r' r'').files p fd = y + vaStart from
      files_opened.trans (if_pos rfl)]
    have hself : (m.opened .file p fd x y r').ram.resourceObject (y + vaStart) = x + vaStart :=
      resourceObject_setResource (lt_kernelAddress hx.isPage)
    rw [← hself]
    refine resourceObject_congr ?_
    rw [Nat.add_sub_cancel]
    exact byte_buffered hz (hopened y (.inr (.inr rfl))) (hin y (hopened y (.inr (.inr rfl))))
  have hkeeps : ∀ g ≠ x, (m.buffered p answers fd x y z r' r'').ram.Taken g → m₂.ram.Taken g ∧
      m₂.ram.byte g = (m.buffered p answers fd x y z r' r'').ram.byte g := fun g hne hg => by
    refine hclose.keeps howned hp' hg fun he => hne ?_
    exact Nat.add_right_cancel (hobject.symm.trans he).symm
  have hzx : z ≠ x := fun he => hz.free (hopened z (.inr (.inl he)))
  have htaken : (m.buffered p answers fd x y z r' r'').ram.Taken z :=
    (taken_buffered hx hy hz).mpr (.inr (.inr (.inr rfl)))
  refine ⟨⟨hclose.owned howned hp', hsane⟩, hsame, fun g hg => ?_, ⟨(hkeeps z hzx htaken).1, ?_⟩,
    fun i hi => ?_⟩
  · have hgx : g ≠ x := fun he => hx.free (he ▸ hg)
    obtain ⟨hg₂, hbyte⟩ := hkeeps g hgx ((taken_buffered hx hy hz).mpr (.inl hg))
    refine ⟨hg₂, hbyte.trans ?_⟩
    rw [byte_buffered hz (hopened g (.inl hg)) (hin g (hopened g (.inl hg))), byte_opened hx hy hg]
  · intro u hu hspace
    have hold : m.Uses u z := (hsame.uses_iff hspace).mp hu
    exact hz.free (hopened z (.inl (h.owned.taken u z hold)))
  · rw [(hkeeps z hzx htaken).2]
    exact byte_store_self (Nat.lt_of_lt_of_le hi hsize) hi

/-! ## The new image -/

theorem saveArguments_ok {pgd n va : Nat} {arguments : List (List Byte)}
    (h : saveArguments pgd r n va = .ok arguments) : arguments.length = n ∧
      ∀ i (hi : i < arguments.length),
        loadString pgd r execArgumentDimension (va + execArgumentDimension * i) =
          .ok arguments[i] := by
  induction n generalizing va arguments with
  | zero =>
      obtain rfl := Except.ok.inj h
      exact ⟨rfl, nofun⟩
  | succ n ih =>
      rw [saveArguments] at h
      obtain ⟨argument, hfirst, hbody⟩ := bind_ok h
      obtain ⟨rest, hrest, hend⟩ := bind_ok hbody
      obtain rfl := Except.ok.inj hend
      obtain ⟨hlen, hall⟩ := ih hrest
      refine ⟨congrArg Nat.succ hlen, fun i hi => ?_⟩
      cases i with
      | zero => exact hfirst
      | succ i =>
          have hnext := hall i (Nat.lt_of_succ_lt_succ hi)
          rw [Nat.add_assoc, Nat.add_comm execArgumentDimension, ← Nat.mul_succ] at hnext
          exact hnext

theorem saveArguments_proper {pgd n va : Nat} {arguments : List (List Byte)}
    (h : saveArguments pgd r n va = .ok arguments) :
    ∀ s ∈ arguments, (∀ b ∈ s, b ≠ 0) ∧ s.length < execArgumentDimension := by
  intro s hs
  obtain ⟨i, hi, rfl⟩ := List.getElem_of_mem hs
  obtain ⟨hstring, hlen⟩ := loadString_iff.mp ((saveArguments_ok h).2 i hi)
  exact ⟨hstring.proper, hlen⟩

/-- What `exec` makes of a process with all its pages, and of what `source` has in the pages of
others.  The new pages are `mm`, in the memory `r` they have the image, and in `r'` the
arguments above it. -/
structure Renewed (m : Machine) (p : Pid) (source : Ram → Nat → Byte) (size : Nat)
    (safeArguments : List (List Byte)) (trapFrame : Nat → Nat) (sp : Nat) (tf : Nat → Nat)
    (mm : MmStruct) (r r' : Ram) : Prop where
  space : ∃ t, Space mm r t (m.Others p) 0 ∧ Space mm r' t (m.Others p) 0
  nUserPages : mm.nUserPages = maxProcessPages
  unwritten : Unwritten (m.Others p) m.ram r'
  contents : ∀ data, Faithful (m.Others p) m.ram source data size →
    Contents mm r (image data size)
  pushed : Pushed mm.pgd safeArguments 0 (16 * pageSize) r trapFrame sp r' tf

variable {size nArguments arguments : Nat} {trapFrame trapFrame' : Nat → Nat}

theorem Replaces.renewed (hr : m.Replaces p z size nArguments arguments trapFrame trapFrame' m')
    (h : m.Orderly) (hp : p < m.nProcesses) (hpages : (m.mm p).nUserPages = maxProcessPages) :
    ∃ safeArguments mm r sp r' tf,
      saveArguments (m.mm p).pgd m.ram nArguments arguments = .ok safeArguments ∧
      m.Renewed p (execSource z) size safeArguments (update trapFrame 0 nArguments) sp tf mm r r' ∧
      trapFrame' = update (update tf 31 sp) 32 0 ∧ m' = m.withSpace p (mm, r') := by
  obtain ⟨safeArguments, mm, r, sp, r', tf, hsave, hfree, hpush, htf, rfl⟩ := hr.replaced
  obtain ⟨t, ht⟩ := h.owned.space_others hp
  obtain ⟨_, _, he, hfreed, hstale⟩ := ht.freeUserPages
  obtain ⟨rfl, rfl⟩ := Prod.mk.inj (he.symm.trans hfree)
  have htable : ∃ g, t 3 0 = some g :=
    ht.tables.lastTable (by decide) (ht.mapped 0 (by rw [hpages]; decide))
  have hspare := ht.spare_freed hfreed
  rw [hpages] at hstale hspare
  obtain ⟨hsane, hall⟩ := hstale.copyCode_sane (hfreed.nUserPages.trans (Nat.sub_self _)) htable
    hspare (hfreed.flags.2.trans h.sane) (execSource z) size
  obtain ⟨hkept, hloaded⟩ := ht.reload hfree hsane
  obtain ⟨t', hspace⟩ := hloaded.space
  obtain ⟨hspace', hpushed⟩ := hspace.pushArguments hpush
  refine ⟨safeArguments, _, _, sp, r', tf, hsave, ⟨⟨t', hspace, hspace'⟩, hall, ?_, ?_, ?_⟩, htf,
    rfl⟩
  · exact (hkept.trans hloaded.unwritten).trans hpushed
  · exact fun data hdata => hloaded.contents data fun r₁ hr₁ => hdata r₁ (hkept.trans hr₁)
  · exact hspace.pushed (saveArguments_proper hsave) (by decide) hpush

theorem image_eq (data : Nat → Byte) (size va : Nat) :
    image data size (va / pageSize) (va % pageSize) = if va < size then data va else 0 := by
  rw [image, Nat.div_add_mod']

theorem execSource_of_lt {i : Nat} (hi : i < pageSize) : execSource z r i = r.byte z i := by
  rw [execSource, Nat.div_eq_of_lt hi, Nat.mod_eq_of_lt hi, Nat.zero_mul, Nat.add_zero]

/-- The process has its pages, with the bytes of the file and zeros up to the arguments, and
the pages of others are as they were. -/
structure Loads (m : Machine) (p : Pid) (file : List Byte) (nArguments : Nat) (m' : Machine) :
    Prop where
  nUserPages : (m'.mm p).nUserPages = maxProcessPages
  image : ∀ va < 16 * pageSize - execArgumentDimension * nArguments,
    userByte (m'.mm p).pgd m'.ram va = some (file.getD va 0)
  foreign : ∀ g, m.Others p g → m'.ram.byte g = m.ram.byte g

/-- Every successful `exec` of the file loads it. -/
def LoadedBy (file : List Byte) : Prop :=
  ∀ (m m' : Machine) (p : Pid) (openError closeError : Int) (trapFrame trapFrame' : Nat → Nat)
    (nArguments arguments : Nat), m.Orderly → p < m.nProcesses → m.userMode p = true →
    (m.mm p).nUserPages = maxProcessPages →
    m.syscallExec p ⟨openError, file, closeError⟩ trapFrame nArguments arguments =
      .ok (0, trapFrame', m') →
    m.Loads p file nArguments m'

theorem exec_zero
    (hexec : m.syscallExec p answers trapFrame nArguments arguments = .ok (0, trapFrame', m')) :
    ∃ fd z result m₁ m₂, m.Buffers p answers fd z m₁ ∧
      m₁.Closes p fd answers.closeError result m₂ ∧ answers.bytes.length ≤ pageSize * 15 ∧
      m₂.Replaces p z answers.bytes.length nArguments arguments trapFrame trapFrame' m' := by
  have hcases := syscallExec_cases hexec
  generalize hcode : (0 : Int) = code at hcases
  cases hcases with
  | unopened => exact absurd hcode (by decide)
  | large => exact absurd hcode (by decide)
  | execs hb hclose hsize hreplace => exact ⟨_, _, _, _, _, hb, hclose, hsize, hreplace⟩

/-- The pages of others before the call are others' when the file has been read. -/
theorem Reads.others {bytes : List Byte} (hr : m.Reads p z bytes m₂)
    (hg : m.Others p g) : m₂.Others p g :=
  ⟨(hr.keeps g hg.1).1, fun u hu hspace => hg.2 u ((hr.same.uses_iff hspace).mp hu) hspace⟩

theorem loads_of_small (h : m.Orderly) (hp : p < m.nProcesses)
    (hpages : (m.mm p).nUserPages = maxProcessPages) (hsize : answers.file.length ≤ pageSize)
    (hexec : m.syscallExec p answers trapFrame nArguments arguments = .ok (0, trapFrame', m')) :
    m.Loads p answers.file nArguments m' := by
  obtain ⟨fd, z, result, m₁, m₂, hb, hclose, _, hreplace⟩ := exec_zero hexec
  have hbytes : answers.bytes = answers.file :=
    List.take_of_length_le (hsize.trans (by decide))
  have hreads := hb.reads hclose h hp (hbytes ▸ hsize)
  rw [hbytes] at hreads hreplace
  have hp₂ : p < m₂.nProcesses := by
    rw [hreads.same.nProcesses]
    exact hp
  obtain ⟨safeArguments, mm, r, sp, r', tf, hsave, hrenewed, _, rfl⟩ :=
    hreplace.renewed hreads.orderly hp₂ (by rw [hreads.same.mm]; exact hpages)
  have hmm : (m₂.withSpace p (mm, r')).mm p = mm := update_self ..
  obtain ⟨t, hspace, _⟩ := hrenewed.space
  have hfaithful : Faithful (m₂.Others p) m₂.ram (execSource z) (fun i => answers.file.getD i 0)
      answers.file.length := fun r₁ hr₁ i hi => by
    rw [execSource_of_lt (Nat.lt_of_lt_of_le hi hsize), hr₁ z hreads.buffer, hreads.source i hi]
    dsimp only
    rw [List.getD_eq_getElem?_getD, List.getElem?_eq_getElem hi, Option.getD_some]
  refine ⟨by rw [hmm]; exact hrenewed.nUserPages, fun va hva => ?_, fun g hg => ?_⟩
  · have hlen := hrenewed.pushed.stackPointer
    rw [(saveArguments_ok hsave).1] at hlen
    have hbelow : va < mm.nUserPages * pageSize := by
      rw [hrenewed.nUserPages]
      exact Nat.lt_of_lt_of_le hva (Nat.sub_le _ _)
    rw [hmm]
    refine (hrenewed.pushed.rest va (by unfold pageSize at hva; omega) (.inl (by omega))).trans ?_
    rw [hspace.userByte_contents (hrenewed.contents _ hfaithful) hbelow, image_eq]
    split
    next => rfl
    next hge =>
      rw [List.getD_eq_getElem?_getD, List.getElem?_eq_none (Nat.le_of_not_lt hge),
        Option.getD_none]
  · exact (hrenewed.unwritten g (hreads.others hg)).trans (hreads.keeps g hg.1).2

end Machine

end Demoos
