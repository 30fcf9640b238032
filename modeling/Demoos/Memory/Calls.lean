import Demoos.Memory.Ownership

/-!
# Calls

Every call keeps the pages in order, if it has not relied on a page that it did not get.  Opens
and closes are about descriptors.  Fork, exec and the move to user mode build an address space
among pages that are others', and put it in the place of the old one.
-/

namespace Demoos

open Function (update update_self update_of_ne update_apply)

namespace Machine

variable {m m' : Machine} {p q : Pid} {fd g x : Nat} {u v : Use}

/-! ## The address space of one process -/

theorem Owned.others (h : m.Owned) (hu : m.Uses u g) (hp : ¬ u.OfSpace p) : m.Others p g :=
  ⟨h.taken u g hu, fun v hv => h.distinct u v g hu hv ▸ hp⟩

/-- The address space of a process, among all other pages. -/
theorem Owned.space_others (h : m.Owned) (hp : p < m.nProcesses) :
    ∃ t, Space (m.mm p) m.ram t (m.Others p) 0 := by
  obtain ⟨t, ht⟩ := h.space p hp
  refine ⟨t, ht.congr (fun g hg => ?_) (fun _ _ => rfl) fun g hg => ⟨hg.1, ?_, ?_⟩⟩
  · rcases hg with hg | hg
    · exact ht.taken g (.inr hg)
    · exact (ht.tables.own g hg).1
  · rintro ⟨i, hi, rfl⟩
    exact hg.2 (.user p i) ⟨hp, hi, rfl⟩ rfl
  · intro hg'
    obtain ⟨i, hi, rfl⟩ := ht.tables.tracked.complete g hg'
    exact hg.2 (.table p i) ⟨hp, hi, rfl⟩ rfl

variable {mm' : MmStruct} {r' : Ram}

/-- The uses outside of the address space of `p` are the old ones. -/
theorem Owned.uses_withSpace (h : m.Owned) (hr : Unwritten (m.Others p) m.ram r')
    (hu : ¬ u.OfSpace p) : (m.withSpace p (mm', r')).Uses u g ↔ m.Uses u g := by
  have hmm : ∀ q, q ≠ p → (m.withSpace p (mm', r')).mm q = m.mm q := fun q hq => update_of_ne hq _ _
  cases u with
  | pcb q => exact .rfl
  | resource q fd => exact .rfl
  | table q i =>
      rw [Uses, hmm q hu]
      exact .rfl
  | user q i =>
      rw [Uses, hmm q hu]
      exact .rfl
  | object q fd =>
      refine and_congr_right fun hq => and_congr_right fun hfd => and_congr_right fun hd => ?_
      have hne : m.descriptor q fd ≠ .unused := fun he => by
        obtain ⟨_, hopened⟩ := hd
        exact absurd (he.symm.trans hopened) nofun
      obtain ⟨x, hfile⟩ := h.exists_resource hq hfd hne
      have hx : m.Others p x := h.others (u := .resource q fd) ⟨hq, hfd, hne, hfile⟩ not_false
      change r'.resourceObject (m.files q fd) = _ ↔ _
      rw [resourceObject_congr (r := m.ram)]
      rw [hfile, Nat.add_sub_cancel]
      exact hr x hx

/-- A use of the new address space is a frame or a table of it. -/
theorem uses_ofSpace {t : Radix.Tree Nat} {R : Nat → Prop} (hs : Space mm' r' t R 0)
    (hu : u.OfSpace p) (hg : (m.withSpace p (mm', r')).Uses u g) :
    (∃ i < mm'.nUserPages, u = .user p i ∧ (mm'.userPages i).physicalAddress = g) ∨
    (∃ i < mm'.nKernelPages, u = .table p i ∧ mm'.kernelPages i = g ∧ IsTable t g) := by
  have hmm : (m.withSpace p (mm', r')).mm p = mm' := update_self ..
  cases u with
  | table q i =>
      obtain rfl : q = p := hu
      obtain ⟨_, hi, hg⟩ := hg
      rw [hmm] at hi hg
      exact .inr ⟨i, hi, rfl, hg.symm, hg ▸ hs.tables.tracked.sound i hi⟩
  | user q i =>
      obtain rfl : q = p := hu
      obtain ⟨_, hi, hg⟩ := hg
      rw [hmm] at hi hg
      exact .inl ⟨i, hi, rfl, hg.symm⟩
  | _ => exact hu.elim

/-- An address space that was built among the pages of others takes the place of the old one. -/
theorem Owned.withSpace (h : m.Owned) (hp : p < m.nProcesses)
    (hs : ∃ t, Space mm' r' t (m.Others p) 0) (hr : Unwritten (m.Others p) m.ram r')
    (hmode : m.userMode p = false → mm'.nUserPages = 0) : (m.withSpace p (mm', r')).Owned := by
  obtain ⟨t, hs⟩ := hs
  have hself : (m.withSpace p (mm', r')).mm p = mm' := update_self ..
  have hmm : ∀ q, q ≠ p → (m.withSpace p (mm', r')).mm q = m.mm q := fun q hq => update_of_ne hq _ _
  have hold : ∀ {u g}, ¬ u.OfSpace p → (m.withSpace p (mm', r')).Uses u g → m.Others p g :=
    fun hu hg => h.others ((h.uses_withSpace hr hu).mp hg) hu
  have hapart : ∀ {u g}, u.OfSpace p → (m.withSpace p (mm', r')).Uses u g → ¬ m.Others p g := by
    intro u g hu hg ho
    rcases uses_ofSpace hs hu hg with ⟨i, hi, _, he⟩ | ⟨_, _, _, _, ht⟩
    · exact hs.apart g ⟨i, hi, he⟩ ho
    · exact (hs.tables.own g ht).2 (.inl ho)
  refine ⟨fun u v g hu hv => ?_, fun u g hu => ?_, fun q hq => ?_, fun q hq hmode' => ?_,
    fun q hq fd hfd => ?_⟩
  · by_cases hup : u.OfSpace p
    · by_cases hvp : v.OfSpace p
      · rcases uses_ofSpace hs hup hu with ⟨i, hi, rfl, hui⟩ | ⟨i, hi, rfl, hui, hut⟩ <;>
          rcases uses_ofSpace hs hvp hv with ⟨j, hj, rfl, hvj⟩ | ⟨j, hj, rfl, hvj, hvt⟩
        · rw [hs.once i hi j hj (hui.trans hvj.symm)]
        · exact absurd hvt (hs.frame_apart ⟨i, hi, hui⟩)
        · exact absurd hut (hs.frame_apart ⟨j, hj, hvj⟩)
        · rw [hs.tables.tracked.once i hi j hj (hui.trans hvj.symm)]
      · exact absurd (hold hvp hv) (hapart hup hu)
    · by_cases hvp : v.OfSpace p
      · exact absurd (hold hup hu) (hapart hvp hv)
      · exact h.distinct u v g ((h.uses_withSpace hr hup).mp hu) ((h.uses_withSpace hr hvp).mp hv)
  · by_cases hup : u.OfSpace p
    · rcases uses_ofSpace hs hup hu with ⟨i, hi, _, he⟩ | ⟨_, _, _, _, ht⟩
      · exact hs.taken g (.inr ⟨i, hi, he⟩)
      · exact (hs.tables.own g ht).1
    · exact hs.taken g (.inl (hold hup hu))
  · by_cases hqp : q = p
    · subst hqp
      rw [hself]
      refine ⟨t, hs.congr (fun g hg => ?_) (fun _ _ => rfl) fun _ => False.elim⟩
      rcases hg with hg | hg
      · exact hs.taken g (.inr hg)
      · exact (hs.tables.own g hg).1
    · rw [hmm q hqp]
      obtain ⟨t', ht⟩ := h.space q hq
      have hframe : ∀ g, (m.mm q).Frame g ∨ IsTable t' g → m.Others p g := by
        rintro g (⟨i, hi, rfl⟩ | hg)
        · exact h.others (u := .user q i) ⟨hq, hi, rfl⟩ hqp
        · obtain ⟨i, hi, rfl⟩ := ht.tables.tracked.complete g hg
          exact h.others (u := .table q i) ⟨hq, hi, rfl⟩ hqp
      exact ⟨t', ht.congr (fun g hg => hs.taken g (.inl (hframe g hg)))
        (fun g hg => hr g (hframe g (.inr hg))) fun _ => False.elim⟩
  · by_cases hqp : q = p
    · subst hqp
      rw [hself]
      exact hmode hmode'
    · rw [hmm q hqp]
      exact h.kernelThread q hq hmode'
  · have hobject : ∀ g, m.descriptor q fd ≠ .unused → m.files q fd = g + vaStart →
        r'.resourceObject (m.files q fd) = m.ram.resourceObject (m.files q fd) := by
      intro g hd hfile
      refine resourceObject_congr ?_
      rw [hfile, Nat.add_sub_cancel]
      exact hr g (h.others (u := .resource q fd) ⟨hq, hfd, hd, hfile⟩ not_false)
    cases h.slot q hq fd hfd with
    | unused hd hfile => exact .unused hd hfile
    | opened type g x hd hfile ho htype =>
        exact .opened type g x hd hfile ((hobject g (by rw [hd]; nofun) hfile).trans ho) htype
    | closed g hd hfile ho =>
        exact .closed g hd hfile ((hobject g (by rw [hd]; nofun) hfile).trans ho)

/-! ## Fork -/

/-- A new process uses the page of its PCB. -/
theorem uses_register {kernelThread : Bool}
    (hu : (m.register (x + vaStart) kernelThread).Uses u g) :
    m.Uses u g ∨ u = .pcb m.nProcesses ∧ g = x := by
  have hne : ∀ {q}, q < m.nProcesses + 1 → q ≠ m.nProcesses → q < m.nProcesses := fun hq hne =>
    Nat.lt_of_le_of_ne (Nat.lt_succ_iff.mp hq) hne
  cases u with
  | pcb q =>
      obtain ⟨hi, hq, hg⟩ := hu
      unfold register at hg
      dsimp only at hg
      rw [update_apply, Nat.add_sub_cancel] at hg
      split at hg
      next he => exact .inr ⟨by rw [he], hg⟩
      next he => exact .inl ⟨hi, hne hq he, hg⟩
  | table q i =>
      obtain ⟨hq, hi, hg⟩ := hu
      unfold register at hi hg
      dsimp only at hi hg
      rw [update_apply] at hi hg
      split at hi
      next => exact absurd hi (Nat.not_lt_zero i)
      next he =>
        rw [if_neg he] at hg
        exact .inl ⟨hne hq he, hi, hg⟩
  | user q i =>
      obtain ⟨hq, hi, hg⟩ := hu
      unfold register at hi hg
      dsimp only at hi hg
      rw [update_apply] at hi hg
      split at hi
      next => exact absurd hi (Nat.not_lt_zero i)
      next he =>
        rw [if_neg he] at hg
        exact .inl ⟨hne hq he, hi, hg⟩
  | resource q fd =>
      obtain ⟨hq, hfd, hd, hfile⟩ := hu
      unfold register at hd hfile
      dsimp only at hd hfile
      rw [update_apply] at hd hfile
      split at hd
      next => exact absurd rfl hd
      next he =>
        rw [if_neg he] at hfile
        exact .inl ⟨hne hq he, hfd, hd, hfile⟩
  | object q fd =>
      obtain ⟨hq, hfd, ⟨type, hd⟩, hfile⟩ := hu
      unfold register at hd hfile
      dsimp only at hd hfile
      rw [update_apply] at hd hfile
      split at hd
      next => exact absurd hd nofun
      next he =>
        rw [if_neg he] at hfile
        exact .inl ⟨hne hq he, hfd, ⟨type, hd⟩, hfile⟩

/-- All that is marked is others' for a new process. -/
theorem others_register {kernelThread : Bool} (g : Nat) :
    (m.register (x + vaStart) kernelThread).Others m.nProcesses g ↔ m.ram.Taken g := by
  refine and_iff_left fun u hu => ?_
  rcases uses_register hu with hu | ⟨rfl, _⟩
  · cases u with
    | table q i => exact fun he => absurd hu.1 (he ▸ Nat.lt_irrefl _)
    | user q i => exact fun he => absurd hu.1 (he ▸ Nat.lt_irrefl _)
    | _ => exact not_false
  · exact not_false

theorem Owned.register (h : m.Owned) (hx : m.ram.Taken x) (hu : ∀ u, ¬ m.Uses u x)
    (kernelThread : Bool) : (m.register (x + vaStart) kernelThread).Owned := by
  have hne : ∀ {q}, q < m.nProcesses + 1 → q ≠ m.nProcesses → q < m.nProcesses := fun hq hne =>
    Nat.lt_of_le_of_ne (Nat.lt_succ_iff.mp hq) hne
  refine ⟨fun u v g hg hg' => ?_, fun u g hg => ?_, fun q hq => ?_, fun q hq hmode => ?_,
    fun q hq fd hfd => ?_⟩
  · rcases uses_register hg with hg | ⟨rfl, rfl⟩ <;> rcases uses_register hg' with hg' | ⟨rfl, he⟩
    · exact h.distinct u v g hg hg'
    · exact absurd (he ▸ hg) (hu u)
    · exact absurd hg' (hu v)
    · rfl
  · rcases uses_register hg with hg | ⟨_, rfl⟩
    · exact h.taken u g hg
    · exact hx
  · unfold Machine.register
    dsimp only
    rw [update_apply]
    split
    next => exact ⟨_, Space.empty fun _ => False.elim⟩
    next he => exact h.space q (hne hq he)
  · unfold Machine.register at hmode ⊢
    dsimp only at hmode ⊢
    rw [update_apply] at hmode ⊢
    split
    next => rfl
    next he =>
      rw [if_neg he] at hmode
      exact h.kernelThread q (hne hq he) hmode
  · by_cases he : q = m.nProcesses
    · refine .unused ?_ ?_
      · unfold Machine.register
        dsimp only
        rw [update_apply, if_pos he]
      · unfold Machine.register
        dsimp only
        rw [update_apply, if_pos he]
    · have hfiles : (m.register (x + vaStart) kernelThread).files q = m.files q :=
        update_of_ne he _ _
      have hdescriptor : (m.register (x + vaStart) kernelThread).descriptor q = m.descriptor q :=
        update_of_ne he _ _
      cases h.slot q (hne hq he) fd hfd with
      | unused hd hfile =>
          exact .unused (by rw [hdescriptor]; exact hd) (by rw [hfiles]; exact hfile)
      | opened type g y hd hfile ho htype =>
          exact .opened type g y (by rw [hdescriptor]; exact hd) (by rw [hfiles]; exact hfile)
            (by rw [hfiles]; exact ho) htype
      | closed g hd hfile ho =>
          exact .closed g (by rw [hdescriptor]; exact hd) (by rw [hfiles]; exact hfile)
            (by rw [hfiles]; exact ho)

/-- The memory of a child with the PCB in the page `x`. -/
def childSpace (m : Machine) (p : Pid) (kernelThread : Bool) (r : Ram) : MmStruct × Ram :=
  if kernelThread then (emptyMm, r) else (copyVirtualMemory (m.mm p) emptyMm r).2

/-- What `copy_process` can do. -/
inductive Forks (m : Machine) (p : Pid) (kernelThread : Bool) : Int → Machine → Prop
  | failed (hfull : m.allocate.1 = 0 ∨ maxProcesses ≤ m.nProcesses) :
      Forks m p kernelThread (-1) m.allocate.2
  | forks {x : Nat} {r : Ram} (hroom : m.nProcesses < maxProcesses) (hx : m.ram.Takes x r) :
      Forks m p kernelThread m.nProcesses
        ((({ m with ram := r } : Machine).register (x + vaStart) kernelThread).withSpace m.nProcesses
          (m.childSpace p kernelThread r))

theorem copyProcess_cases (m : Machine) (p : Pid) (kernelThread : Bool) :
    m.Forks p kernelThread (m.copyProcess p kernelThread).1 (m.copyProcess p kernelThread).2 := by
  unfold copyProcess
  dsimp only
  split
  next hfull => exact .failed hfull
  next hfull =>
    obtain ⟨hne, hroom⟩ := not_or.mp hfull
    obtain ⟨x, hpage, hx⟩ := Ram.takes_allocateKernelPage hne
    rw [show m.allocate.1 = x + vaStart from hpage]
    exact Forks.forks (m := m) (Nat.lt_of_not_le hroom) hx

/-- What a fork leaves behind: the child has its pages, apart from all others. -/
structure Forked (m : Machine) (p : Pid) (r : Ram) (s : MmStruct × Ram) : Prop where
  space : ∃ t, Space s.1 s.2 t r.Taken 0
  unwritten : Unwritten r.Taken r s.2
  contents : Contents s.1 s.2 fun i => r.byte ((m.mm p).userPages i).physicalAddress
  full : s.2.exhausted = false → s.1.nUserPages = (m.mm p).nUserPages

theorem Owned.forked (h : m.Owned) (hp : p < m.nProcesses) {r : Ram} (hx : m.ram.Takes x r)
    (hok : (m.childSpace p false r).2.corrupted = false) :
    m.Forked p r (m.childSpace p false r) := by
  obtain ⟨t, ht⟩ := h.space p hp
  have hspace : m.childSpace p false r = (Demoos.copyPages (m.mm p)
      (List.range' emptyMm.nUserPages (m.mm p).nUserPages) emptyMm r).2 := by
    change (Demoos.copyPages _ _ _ _).2 = _
    rw [List.range_eq_range']
    rfl
  rw [hspace] at hok ⊢
  have hn : emptyMm.nUserPages + (m.mm p).nUserPages = (m.mm p).nUserPages := Nat.zero_add _
  have hsrc : ∀ i < emptyMm.nUserPages + (m.mm p).nUserPages,
      ((m.mm p).userPages i).virtualAddress = i * pageSize ∧
        r.Taken ((m.mm p).userPages i).physicalAddress ∧
        r.byte ((m.mm p).userPages i).physicalAddress =
          r.byte ((m.mm p).userPages i).physicalAddress := fun i hi => by
    rw [hn] at hi
    exact ⟨ht.address i hi, (hx.taken _).mpr (.inl (ht.taken _ (.inr ⟨i, hi, rfl⟩))), rfl⟩
  obtain ⟨t', hs, hr, hc, hfull⟩ := (Space.empty (r := r) fun _ => id).copyPages (m.mm p)
    (hn.trans_le ht.few) hsrc (fun i hi => absurd hi (Nat.not_lt_zero i)) hok
  exact ⟨⟨t', hs⟩, hr, hc, fun he => (hfull he).trans hn⟩

theorem Forks.owned {kernelThread : Bool} {result : Int}
    (hfork : m.Forks p kernelThread result m') (h : m.Owned) (hp : p < m.nProcesses)
    (hok : m'.ram.corrupted = false) : m'.Owned := by
  cases hfork with
  | failed => exact h.allocate.owned
  | @forks x r hroom hx =>
      have hregister := (h.takes hx).owned.register ((hx.taken x).mpr (.inr rfl))
        (fun u hu => h.ne_takes hx (((h.takes hx).uses u x).mp hu) rfl) kernelThread
      have hothers : (({ m with ram := r } : Machine).register (x + vaStart) kernelThread).Others
          m.nProcesses = r.Taken := funext fun g => propext (others_register g)
      have hlt : m.nProcesses < (({ m with ram := r } : Machine).register (x + vaStart)
          kernelThread).nProcesses := Nat.lt_succ_self _
      cases kernelThread with
      | true =>
          refine hregister.withSpace hlt ⟨_, Space.empty ?_⟩ (.refl _ r) fun _ => rfl
          rw [hothers]
          exact fun _ => id
      | false =>
          have hforked := h.forked hp hx hok
          refine hregister.withSpace hlt ?_ ?_ fun hmode => ?_
          · rw [hothers]
            exact hforked.space
          · rw [hothers]
            exact hforked.unwritten
          · exact absurd ((update_self ..).symm.trans hmode) nofun

/-! ## The move to user mode -/

theorem Owned.enter (h : m.Owned) (p : Pid) :
    ({ m with userMode := update m.userMode p true } : Machine).Owned := by
  refine ⟨h.distinct, h.taken, h.space, fun q hq hmode => ?_, fun q hq fd hfd => ?_⟩
  · dsimp only at hmode
    rw [update_apply] at hmode
    split at hmode
    next => exact absurd hmode nofun
    next => exact h.kernelThread q hq hmode
  · cases h.slot q hq fd hfd with
    | unused hd hfile => exact .unused hd hfile
    | opened type g y hd hfile ho htype => exact .opened type g y hd hfile ho htype
    | closed g hd hfile ho => exact .closed g hd hfile ho

theorem Owned.loaded (h : m.Owned) (hp : p < m.nProcesses) (hn : (m.mm p).nUserPages = 0)
    {source : Ram → Nat → Byte} {size : Nat}
    (hok : (copyCode source size (m.mm p) m.ram).2.corrupted = false) :
    Loaded (m.Others p) source size m.ram (copyCode source size (m.mm p) m.ram).1
      (copyCode source size (m.mm p) m.ram).2 := by
  obtain ⟨t, ht⟩ := h.space_others hp
  exact ht.copyCode (Nat.zero_le _) hn (fun hb => absurd hb (Nat.lt_irrefl 0)) (Ram.spare_zero _) hok

theorem Owned.moveToUserMode (h : m.Owned) (hp : p < m.nProcesses) (hmode : m.userMode p = false)
    {program : List Byte} (hok : (m.moveToUserMode p program).2.ram.corrupted = false) :
    (m.moveToUserMode p program).2.Owned := by
  have hloaded := h.loaded hp (h.kernelThread p hp hmode) hok
  refine (h.enter p).withSpace hp hloaded.space hloaded.unwritten fun hfalse => ?_
  exact absurd ((update_self ..).symm.trans hfalse) nofun

/-! ## Exec -/

/-- What the read of `exec` gets of the file. -/
def ExecAnswers.bytes (answers : ExecAnswers) : List Byte := answers.file.take (pageSize * 16)

/-- `exec` has opened its file, with the pages `x` and `y`, and read it into the page `z`. -/
def buffered (m : Machine) (p : Pid) (answers : ExecAnswers) (fd x y z : Nat) (r r' : Ram) :
    Machine := { m.opened .file p fd x y r with ram := r'.store z answers.bytes }

structure Buffers (m : Machine) (p : Pid) (answers : ExecAnswers) (fd z : Nat) (m' : Machine) :
    Prop where
  opened : answers.openError = 0 ∧ m.getFirstFreeFileDescriptor p = fd ∧ m.files p fd = 0
  lt : fd < maxFilesPerProcess
  taken : ∃ x y r r' r'', m.ram.Takes x r ∧ r.Takes y r' ∧
    (m.opened .file p fd x y r').ram.Takes z r'' ∧ m' = m.buffered p answers fd x y z r' r''

/-- What `syscall_exec` copies from. -/
def execSource (z : Nat) (r : Ram) (i : Nat) : Byte :=
  r.byte (z + i / pageSize * pageSize) (i % pageSize)

/-- `exec` has closed its file, and puts the buffer `z` in the place of the old image. -/
structure Replaces (m : Machine) (p : Pid) (z size nArguments arguments : Nat)
    (trapFrame trapFrame' : Nat → Nat) (m' : Machine) : Prop where
  replaced : ∃ safeArguments mm r sp r' tf,
    saveArguments (m.mm p).pgd m.ram nArguments arguments = .ok safeArguments ∧
    freeUserPages (m.mm p) m.ram = (mm, r) ∧
    pushArguments (copyCode (execSource z) size mm r).1.pgd safeArguments 0 (16 * pageSize)
      (copyCode (execSource z) size mm r).2 (update trapFrame 0 nArguments) = .ok (sp, r', tf) ∧
    trapFrame' = update (update tf 31 sp) 32 0 ∧
    m' = m.withSpace p ((copyCode (execSource z) size mm r).1, r')

/-- What `syscall_exec` can do. -/
inductive Execs (m : Machine) (p : Pid) (answers : ExecAnswers) (nArguments arguments : Nat)
    (trapFrame : Nat → Nat) : Int → (Nat → Nat) → Machine → Prop
  | unopened {m' : Machine} (hopen : m.Opens .file (-1) p answers.openError (-1) m') :
      Execs m p answers nArguments arguments trapFrame (-1) trapFrame m'
  | large {fd z : Nat} {result : Int} {m₁ m₂ : Machine} (hbuffer : m.Buffers p answers fd z m₁)
      (hclose : m₁.Closes p fd answers.closeError result m₂)
      (hsize : pageSize * 15 < answers.bytes.length) :
      Execs m p answers nArguments arguments trapFrame (-1) trapFrame m₂
  | execs {fd z : Nat} {result : Int} {trapFrame' : Nat → Nat} {m₁ m₂ m' : Machine}
      (hbuffer : m.Buffers p answers fd z m₁)
      (hclose : m₁.Closes p fd answers.closeError result m₂)
      (hsize : answers.bytes.length ≤ pageSize * 15)
      (hreplace : m₂.Replaces p z answers.bytes.length nArguments arguments trapFrame trapFrame' m') :
      Execs m p answers nArguments arguments trapFrame 0 trapFrame' m'

theorem readFile_ok {fd error result : Int} (h : m.readFile p fd error = .ok (result, m')) :
    m' = m := by
  unfold readFile at h
  obtain ⟨_, _, h⟩ := bind_ok h
  obtain ⟨_, _, h⟩ := bind_ok h
  obtain ⟨_, _, h⟩ := bind_ok h
  exact (Prod.mk.inj (Except.ok.inj h)).2.symm

theorem syscallExec_cases {answers : ExecAnswers} {nArguments arguments : Nat}
    {trapFrame trapFrame' : Nat → Nat} {result : Int}
    (h : m.syscallExec p answers trapFrame nArguments arguments = .ok (result, trapFrame', m')) :
    m.Execs p answers nArguments arguments trapFrame result trapFrame' m' := by
  unfold syscallExec at h
  obtain ⟨⟨fd, m₁⟩, hopen, hbody⟩ := bind_ok h
  clear h
  dsimp only at hbody
  cases openResource_cases hopen with
  | full =>
      obtain ⟨rfl, hsame⟩ := Prod.mk.inj (Except.ok.inj hbody)
      obtain ⟨rfl, rfl⟩ := Prod.mk.inj hsame
      exact .unopened (openResource_cases hopen)
  | failed =>
      obtain ⟨rfl, hsame⟩ := Prod.mk.inj (Except.ok.inj hbody)
      obtain ⟨rfl, rfl⟩ := Prod.mk.inj hsame
      exact .unopened (openResource_cases hopen)
  | @opens fd x y r r' hlt hfree hfile herror hx hy =>
      rw [if_neg (by omega)] at hbody
      obtain ⟨⟨_, m₂⟩, hread, hstore⟩ := bind_ok hbody
      obtain rfl := readFile_ok hread
      obtain ⟨buffer, hbuffer, hrest⟩ := bind_ok hstore
      clear hbody hstore
      obtain ⟨rfl, hne⟩ := deref_ok hbuffer
      obtain ⟨z, hz, htakes⟩ := Ram.takes_allocateKernelPage hne
      rw [show (m.opened .file p fd x y r').allocate.1 = z + vaStart from hz,
        Nat.add_sub_cancel] at hrest
      obtain ⟨⟨closed, m₃⟩, hclose, hlast⟩ := bind_ok hrest
      clear hrest
      have hbuffers : m.Buffers p answers fd z (m.buffered p answers fd x y z r'
          (m.opened .file p fd x y r').ram.allocateKernelPage.2) :=
        ⟨⟨herror, hfree, hfile⟩, hlt, x, y, r, r', _, hx, hy, htakes, rfl⟩
      have hcloses := closeFile_cases hclose
      dsimp only at hlast
      by_cases hsize : pageSize * 15 < answers.bytes.length
      · obtain ⟨rfl, hsame⟩ := Prod.mk.inj (Except.ok.inj ((if_pos hsize).symm.trans hlast))
        obtain ⟨rfl, rfl⟩ := Prod.mk.inj hsame
        exact .large hbuffers hcloses hsize
      · obtain ⟨safeArguments, hsave, hpushes⟩ := bind_ok ((if_neg hsize).symm.trans hlast)
        obtain ⟨⟨sp, r₁, tf⟩, hpush, hend⟩ := bind_ok hpushes
        obtain ⟨rfl, hsame⟩ := Prod.mk.inj (Except.ok.inj hend)
        obtain ⟨rfl, rfl⟩ := Prod.mk.inj hsame
        exact .execs hbuffers hcloses (Nat.le_of_not_lt hsize)
          ⟨safeArguments, _, _, sp, r₁, tf, hsave, rfl, hpush, rfl, rfl⟩

/-- Pages do not overlap. -/
theorem add_pageSize_le {a b : Nat} (ha : a % pageSize = 0) (hb : b % pageSize = 0) (h : a < b) :
    a + pageSize ≤ b := by
  obtain ⟨i, rfl⟩ := Nat.dvd_of_mod_eq_zero ha
  obtain ⟨j, rfl⟩ := Nat.dvd_of_mod_eq_zero hb
  have hij : i < j := Nat.lt_of_mul_lt_mul_left h
  rw [← Nat.mul_succ]
  exact Nat.mul_le_mul_left _ hij

/-- `bytes` from the page `z` on do not reach the page. -/
def Outside (z : Nat) (bytes : List Byte) (g : Nat) : Prop :=
  g + pageSize ≤ z ∨ z + bytes.length ≤ g

theorem outside_of_ne {z g : Nat} {bytes : List Byte} (hz : IsPage z) (hg : IsPage g) (hne : g ≠ z)
    (hsize : bytes.length ≤ pageSize) : Outside z bytes g := by
  rcases Nat.lt_or_gt_of_ne hne with hbelow | habove
  · exact .inl (add_pageSize_le hg.aligned hz.aligned hbelow)
  · have := add_pageSize_le hz.aligned hg.aligned habove
    exact .inr (by omega)

theorem byte_store {r : Ram} {z g : Nat} {bytes : List Byte} (hout : Outside z bytes g) :
    (r.store z bytes).byte g = r.byte g := by
  unfold Ram.store
  dsimp only
  funext i
  split
  next hi =>
    obtain ⟨hle, hlt⟩ := hi
    rcases hout with hbelow | habove
    · omega
    · rw [List.getElem?_eq_none (by omega)]
      rfl
  next => rfl

/-- A file is read into pages that nobody uses. -/
theorem Owned.buffered (h : m.Owned) {answers : ExecAnswers} {x y z : Nat} {r r' r'' : Ram}
    (hx : m.ram.Takes x r) (hy : r.Takes y r') (hz : (m.opened .file p fd x y r').ram.Takes z r'')
    (hout : ∀ u g, (m.opened .file p fd x y r').Uses u g → Outside z answers.bytes g) :
    (m.buffered p answers fd x y z r' r'').Owned := by
  have hopened : (m.opened .file p fd x y r').Owned := h.opened hx hy
  have htakes := hopened.takes hz
  exact (htakes.owned.write (m.opened .file p fd x y r').object (r := r''.store z answers.bytes)
    (fun _ hg => hg) (fun u g hu => byte_store (hout u g ((htakes.uses u g).mp hu)))
    fun _ _ _ => rfl).owned

/-- A file that fits is read into one page. -/
theorem Buffers.owned {answers : ExecAnswers} {z : Nat} (hb : m.Buffers p answers fd z m')
    (h : m.Owned) (hsize : answers.bytes.length ≤ pageSize) : m'.Owned := by
  obtain ⟨x, y, r, r', r'', hx, hy, hz, rfl⟩ := hb.taken
  have hopened : (m.opened .file p fd x y r').Owned := h.opened hx hy
  exact h.buffered hx hy hz fun u g hu =>
    outside_of_ne hz.isPage (hopened.taken u g hu).isPage (hopened.ne_takes hz hu) hsize

theorem Replaces.owned {z size nArguments arguments : Nat} {trapFrame trapFrame' : Nat → Nat}
    (hr : m.Replaces p z size nArguments arguments trapFrame trapFrame' m') (h : m.Owned)
    (hp : p < m.nProcesses) (hmode : m.userMode p = true) (hok : m'.ram.corrupted = false) :
    m'.Owned := by
  obtain ⟨_, mm, r, sp, r', tf, _, hfree, hpush, _, rfl⟩ := hr.replaced
  obtain ⟨t, ht⟩ := h.space_others hp
  have hcopied : (copyCode (execSource z) size mm r).2.corrupted = false :=
    (flags_pushArguments hpush).2.symm.trans hok
  obtain ⟨hfreed, hloaded⟩ := ht.reload hfree hcopied
  obtain ⟨t', ht'⟩ := hloaded.space
  obtain ⟨hspace, hpushed⟩ := ht'.pushArguments hpush
  have hunwritten := (hfreed.trans hloaded.unwritten).trans hpushed
  refine h.withSpace hp ⟨t', hspace⟩ hunwritten fun hfalse => ?_
  rw [hmode] at hfalse
  exact absurd hfalse nofun

/-! ## Flags -/

theorem ages_freePage (r : Ram) (address : Nat) : r.Ages (r.freePage address).2 :=
  .of_eq (Ram.flags_freePage ..)

theorem ages_free (m : Machine) (address : Nat) : m.ram.Ages (m.free address).ram :=
  ages_freePage ..

theorem Opens.ages {type : ResourceType} {failure error result : Int}
    (hopen : m.Opens type failure p error result m') : m.ram.Ages m'.ram := by
  cases hopen with
  | full => exact .refl _
  | failed hfree herror hx => exact (Ram.Ages.of_eq hx.flags).trans (ages_free { m with ram := _ } _)
  | opens hfd hfree hfile herror hx hy =>
      exact (Ram.Ages.of_eq hx.flags).trans ((Ram.Ages.of_eq hy.flags).trans (.of_eq ⟨rfl, rfl⟩))

theorem Closes.ages {fd error result : Int} (hclose : m.Closes p fd error result m') :
    m.ram.Ages m'.ram := by
  cases hclose with
  | range => exact .refl _
  | failed => exact .refl _
  | closes hn hfd hfile hobject htype herror hy =>
      exact (ages_freePage ..).trans
        ((Ram.Ages.of_eq hy.flags).trans (.of_eq ⟨rfl, rfl⟩))

theorem ages_childSpace (m : Machine) (p : Pid) (kernelThread : Bool) (r : Ram) :
    r.Ages (m.childSpace p kernelThread r).2 := by
  unfold childSpace
  split
  next => exact .refl r
  next => exact ages_copyPages ..

theorem Forks.ages {kernelThread : Bool} {result : Int}
    (hfork : m.Forks p kernelThread result m') : m.ram.Ages m'.ram := by
  cases hfork with
  | failed => exact m.ram.ages_allocateKernelPage
  | forks hroom hx => exact (Ram.Ages.of_eq hx.flags).trans (m.ages_childSpace p kernelThread _)

theorem Buffers.ages {answers : ExecAnswers} {z : Nat} (hb : m.Buffers p answers fd z m') :
    m.ram.Ages m'.ram := by
  obtain ⟨x, y, r, r', r'', hx, hy, hz, rfl⟩ := hb.taken
  have hopened : m.ram.Ages (m.opened .file p fd x y r').ram :=
    (Ram.Ages.of_eq hx.flags).trans ((Ram.Ages.of_eq hy.flags).trans (.of_eq ⟨rfl, rfl⟩))
  exact hopened.trans ((Ram.Ages.of_eq hz.flags).trans (.of_eq ⟨rfl, rfl⟩))

theorem ages_freeUserPage (s : MmStruct × Ram) (i : Nat) : s.2.Ages (freeUserPage s i).2 := by
  obtain ⟨mm, r⟩ := s
  have hsnd : ∀ (mm' : MmStruct) (freed : Int × Ram), r.Ages freed.2 → r.Ages (mm', freed.2).2 :=
    fun _ _ h => h
  rw [freeUserPage_eq]
  exact hsnd _ _ (ages_freePage r _)

theorem ages_freeUserPages (mm : MmStruct) (r : Ram) : r.Ages (freeUserPages mm r).2 := by
  have hpages : ∀ (is : List Nat) (s : MmStruct × Ram), s.2.Ages (is.foldl freeUserPage s).2 := by
    intro is
    induction is with
    | nil => exact fun s => .refl _
    | cons i is ih =>
        intro s
        exact (ages_freeUserPage s i).trans (ih (freeUserPage s i))
  exact hpages (List.range mm.nUserPages) (mm, r)

theorem Replaces.ages {z size nArguments arguments : Nat} {trapFrame trapFrame' : Nat → Nat}
    (hr : m.Replaces p z size nArguments arguments trapFrame trapFrame' m') :
    m.ram.Ages m'.ram := by
  obtain ⟨_, mm, r, sp, r', tf, _, hfree, hpush, _, rfl⟩ := hr.replaced
  have hfreed := ages_freeUserPages (m.mm p) m.ram
  rw [hfree] at hfreed
  exact (hfreed.trans (ages_copyCode ..)).trans (.of_eq (flags_pushArguments hpush))

theorem Execs.ages {answers : ExecAnswers} {nArguments arguments : Nat}
    {trapFrame trapFrame' : Nat → Nat} {result : Int}
    (hexec : m.Execs p answers nArguments arguments trapFrame result trapFrame' m') :
    m.ram.Ages m'.ram := by
  cases hexec with
  | unopened hopen => exact hopen.ages
  | large hbuffer hclose _ => exact hbuffer.ages.trans hclose.ages
  | execs hbuffer hclose _ hreplace => exact (hbuffer.ages.trans hclose.ages).trans hreplace.ages

/-! ## Any call -/

/-- Nothing but descriptors and pages has changed. -/
structure SameProcesses (m m' : Machine) : Prop where
  nProcesses : m'.nProcesses = m.nProcesses
  userMode : m'.userMode = m.userMode
  mm : m'.mm = m.mm

theorem SameProcesses.trans {m'' : Machine} (h : m.SameProcesses m') (h' : m'.SameProcesses m'') :
    m.SameProcesses m'' :=
  ⟨h'.nProcesses.trans h.nProcesses, h'.userMode.trans h.userMode, h'.mm.trans h.mm⟩

theorem Buffers.sameProcesses {answers : ExecAnswers} {z : Nat}
    (hb : m.Buffers p answers fd z m') : m.SameProcesses m' := by
  obtain ⟨_, _, _, _, _, _, _, _, rfl⟩ := hb.taken
  exact ⟨rfl, rfl, rfl⟩

theorem Closes.sameProcesses {fd error result : Int} (hclose : m.Closes p fd error result m') :
    m.SameProcesses m' := by
  cases hclose <;> exact ⟨rfl, rfl, rfl⟩

theorem Execs.owned {answers : ExecAnswers} {nArguments arguments : Nat}
    {trapFrame trapFrame' : Nat → Nat} {result : Int}
    (hexec : m.Execs p answers nArguments arguments trapFrame result trapFrame' m') (h : m.Owned)
    (hp : p < m.nProcesses) (hmode : m.userMode p = true)
    (hfile : answers.file.length ≤ pageSize) (hok : m'.ram.corrupted = false) : m'.Owned := by
  have hsize : answers.bytes.length ≤ pageSize := (List.length_take_le' ..).trans hfile
  cases hexec with
  | unopened hopen => exact hopen.owned h
  | large hbuffer hclose _ =>
      refine hclose.owned (hbuffer.owned h hsize) ?_
      rw [hbuffer.sameProcesses.nProcesses]
      exact hp
  | execs hbuffer hclose _ hreplace =>
      have hsame := hbuffer.sameProcesses.trans hclose.sameProcesses
      refine hreplace.owned (hclose.owned (hbuffer.owned h hsize) ?_) ?_ ?_ hok
      · rw [hbuffer.sameProcesses.nProcesses]
        exact hp
      · rw [hsame.nProcesses]
        exact hp
      · rw [hsame.userMode]
        exact hmode

theorem writeFile_ok {fd error result : Int} (h : m.writeFile p fd error = .ok (result, m')) :
    m' = m := by
  unfold writeFile at h
  obtain ⟨resource, _, h⟩ := bind_ok h
  split at h
  next => exact (Prod.mk.inj (Except.ok.inj h)).2.symm
  next =>
    obtain ⟨_, _, h⟩ := bind_ok h
    exact (Prod.mk.inj (Except.ok.inj h)).2.symm

theorem getNextEntry_ok {fd readError nextError result : Int}
    (h : m.getNextEntry p fd readError nextError = .ok (result, m')) : m' = m := by
  unfold getNextEntry at h
  obtain ⟨_, _, h⟩ := bind_ok h
  obtain ⟨resource, _, h⟩ := bind_ok h
  dsimp only at h
  split at h
  next => exact (Prod.mk.inj (Except.ok.inj h)).2.symm
  obtain ⟨_, _, h⟩ := bind_ok h
  split at h
  next => exact (Prod.mk.inj (Except.ok.inj h)).2.symm
  split at h
  next => exact (Prod.mk.inj (Except.ok.inj h)).2.symm
  next => exact (Prod.mk.inj (Except.ok.inj h)).2.symm

theorem exec_ok {answers : ExecAnswers} {nArguments arguments : Nat} {result : Int}
    (h : m.call p (.exec answers nArguments arguments) = .ok (result, m')) :
    ∃ trapFrame',
      m.Execs p answers nArguments arguments (fun _ => 0) result trapFrame' m' := by
  obtain ⟨⟨code, trapFrame', m₁⟩, hexec, hend⟩ := bind_ok h
  obtain ⟨rfl, rfl⟩ := Prod.mk.inj (Except.ok.inj hend)
  exact ⟨trapFrame', syscallExec_cases hexec⟩

theorem syscallMalloc_snd (m : Machine) : m.syscallMalloc.2 = m.allocate.2 := by
  unfold syscallMalloc
  dsimp only
  split <;> rfl

theorem call_ages {c : Call} {result : Int} (h : m.call p c = .ok (result, m')) :
    m.ram.Ages m'.ram := by
  cases c with
  | copyProcess kernelThread =>
      have hfork := m.copyProcess_cases p kernelThread
      rw [Except.ok.inj h] at hfork
      exact hfork.ages
  | moveToUserMode program =>
      obtain ⟨_, rfl⟩ := Prod.mk.inj (Except.ok.inj h)
      exact ages_copyCode ..
  | exec answers nArguments arguments =>
      obtain ⟨_, hexec⟩ := exec_ok h
      exact hexec.ages
  | malloc =>
      have hmalloc := m.syscallMalloc_snd
      rw [Except.ok.inj h] at hmalloc
      rw [show m' = m.allocate.2 from hmalloc]
      exact m.ram.ages_allocateKernelPage
  | openFile error => exact (openResource_cases h).ages
  | openDir error => exact (openResource_cases h).ages
  | createDir error => exact (openResource_cases h).ages
  | closeFile fd error => exact (closeFile_cases h).ages
  | writeFile fd error =>
      rw [writeFile_ok h]
      exact .refl _
  | readFile fd error =>
      rw [readFile_ok h]
      exact .refl _
  | getNextEntry fd readError nextError =>
      rw [getNextEntry_ok h]
      exact .refl _

/-- The step of a run. -/
theorem Owned.call (h : m.Owned) {c : Call} {result : Int} (hen : m.Enabled p c)
    (hcall : m.call p c = .ok (result, m')) (hok : m'.ram.corrupted = false) : m'.Owned := by
  cases c with
  | copyProcess kernelThread =>
      have hfork := m.copyProcess_cases p kernelThread
      rw [Except.ok.inj hcall] at hfork
      exact hfork.owned h hen hok
  | moveToUserMode program =>
      obtain ⟨_, rfl⟩ := Prod.mk.inj (Except.ok.inj hcall)
      exact h.moveToUserMode hen.1 hen.2 hok
  | exec answers nArguments arguments =>
      obtain ⟨_, hexec⟩ := exec_ok hcall
      exact hexec.owned h hen.1 hen.2.1 hen.2.2 hok
  | malloc =>
      have hmalloc := m.syscallMalloc_snd
      rw [Except.ok.inj hcall] at hmalloc
      rw [show m' = m.allocate.2 from hmalloc]
      exact h.allocate.owned
  | openFile error => exact (openResource_cases hcall).owned h
  | openDir error => exact (openResource_cases hcall).owned h
  | createDir error => exact (openResource_cases hcall).owned h
  | closeFile fd error => exact (closeFile_cases hcall).owned h hen
  | writeFile fd error =>
      rw [writeFile_ok hcall]
      exact h
  | readFile fd error =>
      rw [readFile_ok hcall]
      exact h
  | getNextEntry fd readError nextError =>
      rw [getNextEntry_ok hcall]
      exact h

end Machine

end Demoos
