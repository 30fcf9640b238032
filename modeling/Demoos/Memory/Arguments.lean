import Demoos.Memory.Image

/-!
# The arguments of `exec`

The strings of the caller are saved before its pages are freed, and put on the stack of the
new image when it is there.  The trap frame has a pointer to each of them in the registers
behind the first, up to the thirtieth.
-/

namespace Demoos

open Function (update update_self update_of_ne)

theorem StringAt.unique {pgd va : Nat} {r : Ram} {s s' : List Byte} (h : StringAt pgd r va s)
    (h' : StringAt pgd r va s') : s = s' := by
  have hload := loadString_iff.mpr ⟨h, (by omega : s.length < s.length + s'.length + 1)⟩
  have hload' := loadString_iff.mpr ⟨h', (by omega : s'.length < s.length + s'.length + 1)⟩
  exact Except.ok.inj (hload.symm.trans hload')

namespace Machine

variable {m m' m₂ : Machine} {p : Pid} {z : Nat} {bytes : List Byte}

/-- The process sees the same memory when the file has been read. -/
theorem Reads.userByte (hr : m.Reads p z bytes m₂) (h : m.Owned) (hp : p < m.nProcesses)
    (va : Nat) :
    userByte (m.mm p).pgd m₂.ram va = userByte (m.mm p).pgd m.ram va := by
  obtain ⟨t, ht⟩ := h.space p hp
  exact (ht.unchanged hr.keeps va).2

/-- The strings are below each other in page 15, where the new program finds them. -/
structure Passed (m' : Machine) (p : Pid) (strings : List (List Byte))
    (trapFrame trapFrame' : Nat → Nat) : Prop where
  count : trapFrame' 0 = strings.length
  pointer : ∀ i < strings.length, 15 * pageSize ≤ trapFrame' (i + 1) ∧
    trapFrame' (i + 1) + execArgumentDimension ≤ 16 * pageSize
  copy : ∀ i (hi : i < strings.length),
    StringAt (m'.mm p).pgd m'.ram (trapFrame' (i + 1)) strings[i]
  short : ∀ s ∈ strings, s.length < execArgumentDimension
  disjoint : ∀ i < strings.length, ∀ j < strings.length, i ≠ j →
    trapFrame' (i + 1) + execArgumentDimension ≤ trapFrame' (j + 1) ∨
      trapFrame' (j + 1) + execArgumentDimension ≤ trapFrame' (i + 1)
  stackPointer : trapFrame' 31 % 16 = 0 ∧ trapFrame' 31 ≤ 16 * pageSize ∧
    ∀ i < strings.length, trapFrame' 31 ≤ trapFrame' (i + 1)
  pc : trapFrame' 32 = 0
  others : ∀ k, strings.length < k → k ≠ 31 → k ≠ 32 → trapFrame' k = trapFrame k

variable {strings : List (List Byte)} {trapFrame tf : Nat → Nat} {sp : Nat} {r r' : Ram}
  {mm : MmStruct}

theorem passed_of_pushed (h : Pushed mm.pgd strings 0 (16 * pageSize) r
    (update trapFrame 0 strings.length) sp r' tf) (hn : strings.length ≤ 30)
    (hshort : ∀ s ∈ strings, s.length < execArgumentDimension) :
    (m.withSpace p (mm, r')).Passed p strings trapFrame (update (update tf 31 sp) 32 0) := by
  have hmm : (m.withSpace p (mm, r')).mm p = mm := update_self ..
  have hregister : ∀ k, k ≠ 31 → k ≠ 32 → update (update tf 31 sp) 32 0 k = tf k :=
    fun k h₁ h₂ => by rw [update_of_ne h₂, update_of_ne h₁]
  have hsp : update (update tf 31 sp) 32 0 31 = sp := by
    rw [update_of_ne (by decide), update_self]
  have hpointer : ∀ i < strings.length,
      update (update tf 31 sp) 32 0 (i + 1) + 64 * (i + 1) = 65536 := fun i hi => by
    rw [hregister (i + 1) (by omega) (by omega)]
    have := h.pointer i hi
    rwa [Nat.zero_add] at this
  have hbottom : sp + 64 * strings.length = 65536 := h.stackPointer
  have hpage : pageSize = 4096 := rfl
  have hdimension : execArgumentDimension = 64 := rfl
  refine ⟨?_, fun i hi => ?_, fun i hi => ?_, hshort, fun i hi j hj hne => ?_, ?_, update_self ..,
    fun k hk h₁ h₂ => ?_⟩
  · rw [hregister 0 (by decide) (by decide), h.others 0 (.inl (by decide)), update_self]
  · have := hpointer i hi
    omega
  · rw [hmm, hregister (i + 1) (by omega) (by omega)]
    have hcopy := h.copy i hi
    rwa [Nat.zero_add] at hcopy
  · have := hpointer i hi
    have := hpointer j hj
    omega
  · rw [hsp]
    refine ⟨by omega, by omega, fun i hi => ?_⟩
    have := hpointer i hi
    omega
  · rw [hregister k h₁ h₂, h.others k (.inr (by omega)), update_of_ne (by omega)]

/-- Every successful `exec` passes its arguments on. -/
theorem exec_passes {answers : ExecAnswers} {arguments : Nat} {trapFrame' : Nat → Nat}
    (h : m.Orderly) (hp : p < m.nProcesses) (hpages : (m.mm p).nUserPages = maxProcessPages)
    (hn : strings.length ≤ 30)
    (hstrings : ∀ i (hi : i < strings.length),
      StringAt (m.mm p).pgd m.ram (arguments + execArgumentDimension * i) strings[i])
    (hshort : ∀ s ∈ strings, s.length < execArgumentDimension)
    (hsize : answers.file.length ≤ pageSize)
    (hexec : m.syscallExec p answers trapFrame strings.length arguments =
      .ok (0, trapFrame', m')) :
    m'.Passed p strings trapFrame trapFrame' := by
  obtain ⟨fd, z, result, m₁, m₂, hb, hclose, _, hreplace⟩ := exec_zero hexec
  have hbytes : answers.bytes.length ≤ pageSize := (List.length_take_le' ..).trans hsize
  have hreads := hb.reads hclose h hp hbytes
  have hp₂ : p < m₂.nProcesses := by
    rw [hreads.same.nProcesses]
    exact hp
  obtain ⟨safeArguments, mm, r, sp, r', tf, hsave, hrenewed, rfl, rfl⟩ :=
    hreplace.renewed hreads.orderly hp₂ (by rw [hreads.same.mm]; exact hpages)
  obtain ⟨hlen, hsaved⟩ := saveArguments_ok hsave
  -- What has been saved is what the caller has passed.
  have hsafe : safeArguments = strings := by
    refine List.ext_getElem hlen fun i hi hi' => ?_
    have hcaller := (hstrings i hi').congr fun k _ => hreads.userByte h.owned hp _
    rw [← hreads.same.mm] at hcaller
    exact (loadString_iff.mp (hsaved i hi)).1.unique hcaller
  subst hsafe
  exact passed_of_pushed hrenewed.pushed hn hshort

/-- Two strings of a user process: `ab` and `c`. -/
def twoArguments : List Byte := [0x61, 0x62] ++ List.replicate 62 0 ++ [0x63]

set_option maxRecDepth 100000 in
theorem passed_twoArguments : ∃ m trapFrame' m',
    Transition.exec proceed [(0, .copyProcess true), (1, .moveToUserMode twoArguments)] boot =
      some m ∧
    m.syscallExec 1 ⟨0, [1, 2, 3], 0⟩ (fun _ => 7) 2 0 = .ok (0, trapFrame', m') ∧
    m'.Passed 1 [[0x61, 0x62], [0x63]] (fun _ => 7) trapFrame' := by
  have hrun : ((Transition.exec proceed [(0, .copyProcess true), (1, .moveToUserMode twoArguments)]
      boot).map fun m => (decide (1 < m.nProcesses ∧ (m.mm 1).nUserPages = maxProcessPages),
        saveArguments (m.mm 1).pgd m.ram 2 0,
        (m.syscallExec 1 ⟨0, [1, 2, 3], 0⟩ (fun _ => 7) 2 0).map Prod.fst)) =
      some (true, .ok [[0x61, 0x62], [0x63]], .ok 0) := by
    decide +kernel
  obtain ⟨m, hm, he⟩ := Option.map_eq_some_iff.mp hrun
  obtain ⟨hprocess, he⟩ := Prod.mk.inj he
  obtain ⟨hsave, hcode⟩ := Prod.mk.inj he
  obtain ⟨hp, hpages⟩ := of_decide_eq_true hprocess
  cases hexec : m.syscallExec 1 ⟨0, [1, 2, 3], 0⟩ (fun _ => 7) 2 0 with
  | error e =>
      rw [hexec] at hcode
      exact absurd hcode nofun
  | ok x =>
      obtain ⟨result, trapFrame', m'⟩ := x
      rw [hexec] at hcode
      obtain rfl : result = 0 := Except.ok.inj hcode
      refine ⟨m, trapFrame', m', hm, hexec, ?_⟩
      exact exec_passes (Proceeds.orderly ⟨_, hm⟩) hp hpages
        (by decide) (fun i hi => (loadString_iff.mp ((saveArguments_ok hsave).2 i hi)).1) (by decide)
        (by decide) hexec

end Machine

end Demoos
