import Demoos.Memory.Isolation

/-!
# What a process sees of its memory

A byte at a user address is what the walk of the tables leads to.  Two addresses of different
pages lead to different frames, so a write to some addresses leaves what is at the
others, and `exec` puts its arguments below each other without an overlap.
-/

namespace Demoos

open Function (update update_self update_of_ne update_apply)

/-- The byte at a user address, if there is one. -/
def userByte (pgd : Nat) (r : Ram) (va : Nat) : Option Byte :=
  (translate r pgd va).map fun g => r.byte g (va % pageSize)

/-- There is a string at a user address, with a zero behind it. -/
structure StringAt (pgd : Nat) (r : Ram) (va : Nat) (s : List Byte) : Prop where
  text : ∀ i (hi : i < s.length), userByte pgd r (va + i) = some s[i]
  ended : userByte pgd r (va + s.length) = some 0
  proper : ∀ b ∈ s, b ≠ 0

variable {pgd : Nat} {r r' : Ram} {va a n : Nat} {b : Byte} {s : List Byte}

theorem StringAt.congr (h : StringAt pgd r va s) {pgd' : Nat}
    (hbyte : ∀ i ≤ s.length, userByte pgd' r' (va + i) = userByte pgd r (va + i)) :
    StringAt pgd' r' va s where
  text i hi := (hbyte i (Nat.le_of_lt hi)).trans (h.text i hi)
  ended := (hbyte _ (Nat.le_refl _)).trans h.ended
  proper := h.proper

theorem stringAt_nil : StringAt pgd r va [] ↔ userByte pgd r va = some 0 :=
  ⟨StringAt.ended, fun h => ⟨nofun, h, nofun⟩⟩

theorem stringAt_cons :
    StringAt pgd r va (b :: s) ↔ userByte pgd r va = some b ∧ b ≠ 0 ∧ StringAt pgd r (va + 1) s := by
  have hnext : ∀ i, va + 1 + i = va + (i + 1) := fun i => by omega
  constructor
  · intro h
    refine ⟨h.text 0 (Nat.succ_pos _), h.proper b List.mem_cons_self, fun i hi => ?_, ?_,
      fun x hx => h.proper x (List.mem_cons_of_mem b hx)⟩
    · rw [hnext]
      exact h.text (i + 1) (Nat.succ_lt_succ hi)
    · rw [hnext]
      exact h.ended
  · rintro ⟨hb, hne, hs⟩
    refine ⟨fun i hi => ?_, ?_, List.forall_mem_cons.mpr ⟨hne, hs.proper⟩⟩
    · cases i with
      | zero => exact hb
      | succ i =>
          rw [← hnext]
          exact hs.text i (Nat.lt_of_succ_lt_succ hi)
    · rw [List.length_cons, ← hnext]
      exact hs.ended

/-- A string that fits into the array. -/
theorem loadString_iff :
    loadString pgd r n va = .ok s ↔ StringAt pgd r va s ∧ s.length < n := by
  induction n generalizing va s with
  | zero => exact ⟨nofun, fun h => absurd h.2 (Nat.not_lt_zero _)⟩
  | succ n ih =>
      rw [loadString]
      cases hg : translate r pgd va with
      | none =>
          have hnone : userByte pgd r va = none := by rw [userByte, hg]; rfl
          refine iff_of_false nofun fun h => ?_
          cases s with
          | nil =>
              have hzero := stringAt_nil.mp h.1
              exact absurd (hnone.symm.trans hzero) nofun
          | cons b s =>
              have hb := (stringAt_cons.mp h.1).1
              exact absurd (hnone.symm.trans hb) nofun
      | some g =>
          have hsome : userByte pgd r va = some (r.byte g (va % pageSize)) := by
            rw [userByte, hg]
            rfl
          dsimp only
          split
          next hzero =>
            rw [hzero] at hsome
            constructor
            · intro h
              obtain rfl := Except.ok.inj h
              exact ⟨stringAt_nil.mpr hsome, Nat.succ_pos n⟩
            · rintro ⟨h, _⟩
              cases s with
              | nil => rfl
              | cons b s =>
                  obtain ⟨hb, hne, _⟩ := stringAt_cons.mp h
                  exact absurd (Option.some.inj (hsome.symm.trans hb)).symm hne
          next hne =>
            cases s with
            | nil =>
                refine iff_of_false (fun h => ?_) fun h => ?_
                · cases hrest : loadString pgd r n (va + 1) with
                  | error e => rw [hrest] at h; exact absurd h nofun
                  | ok rest => rw [hrest] at h; exact absurd h nofun
                · exact hne (Option.some.inj (hsome.symm.trans (stringAt_nil.mp h.1)))
            | cons b s =>
                rw [stringAt_cons, hsome, Option.some_inj, List.length_cons, Nat.succ_lt_succ_iff]
                constructor
                · intro h
                  cases hrest : loadString pgd r n (va + 1) with
                  | error e => rw [hrest] at h; exact absurd h nofun
                  | ok rest =>
                      rw [hrest] at h
                      obtain ⟨rfl, rfl⟩ := List.cons.inj (Except.ok.inj h)
                      obtain ⟨hs, hlen⟩ := ih.mp hrest
                      exact ⟨⟨rfl, hne, hs⟩, hlen⟩
                · rintro ⟨⟨rfl, _, hs⟩, hlen⟩
                  rw [ih.mpr ⟨hs, hlen⟩]
                  rfl

/-! ## Writes to user addresses -/

namespace Space

variable {mm : MmStruct} {t : Radix.Tree Nat} {R : Nat → Prop} {g g' : Nat} {bytes : List Byte}

/-- A frame is at one page. -/
theorem translate_inj (h : Space mm r t R 0) (hva : va < 2 ^ 48) (ha : a < 2 ^ 48)
    (hg : translate r mm.pgd va = some g) (hg' : translate r mm.pgd a = some g) :
    va / pageSize = a / pageSize := by
  obtain ⟨i, hi, hpage⟩ := (h.translate_iff hva).mp hg
  obtain ⟨j, hj, hpage'⟩ := (h.translate_iff ha).mp hg'
  obtain rfl := h.once i hi j hj (by rw [hpage, hpage'])
  have hsame := (UserPage.mk.inj (hpage.symm.trans hpage')).2
  exact Nat.eq_of_mul_eq_mul_right (by decide) hsame

/-- The walk has a way for every user address. -/
theorem lt_limit (h : Space mm r t R 0) (ha : a < mm.nUserPages * pageSize) : a < 2 ^ 48 := by
  have hfew := h.few
  unfold maxProcessPages at hfew
  unfold pageSize at ha
  omega

theorem userByte_isSome (h : Space mm r t R 0) (ha : a < mm.nUserPages * pageSize) :
    ∃ g, translate r mm.pgd a = some g := by
  have hpage : a / pageSize < mm.nUserPages := Nat.div_lt_of_lt_mul (by rwa [Nat.mul_comm])
  refine ⟨(mm.userPages (a / pageSize)).physicalAddress,
    (h.translate_iff (h.lt_limit ha)).mpr ⟨a / pageSize, hpage, ?_⟩⟩
  rw [← h.address _ hpage]

theorem userByte_contents (h : Space mm r t R 0) {c : Nat → Nat → Byte} (hc : Contents mm r c)
    (ha : a < mm.nUserPages * pageSize) :
    userByte mm.pgd r a = some (c (a / pageSize) (a % pageSize)) := by
  obtain ⟨g, hg⟩ := h.userByte_isSome ha
  obtain ⟨i, hi, hpage⟩ := (h.translate_iff (h.lt_limit ha)).mp hg
  have haddress := h.address i hi
  rw [hpage] at haddress
  obtain rfl : a / pageSize = i := Nat.eq_of_mul_eq_mul_right (by decide) haddress
  rw [userByte, hg, Option.map_some, ← hc _ hi _ (Nat.mod_lt _ (by decide)), hpage]

/-- All that is at user addresses. -/
theorem userByte_eq (h : Space mm r t R 0) {c : Nat → Nat → Byte} (hc : Contents mm r c)
    (ha : a < 2 ^ 48) : userByte mm.pgd r a =
      if a < mm.nUserPages * pageSize then some (c (a / pageSize) (a % pageSize)) else none := by
  split
  next hlt => exact h.userByte_contents hc hlt
  next hge =>
    cases hg : translate r mm.pgd a with
    | none => rw [userByte, hg, Option.map_none]
    | some g =>
        obtain ⟨i, hi, hpage⟩ := (h.translate_iff ha).mp hg
        have haddress := h.address i hi
        rw [hpage] at haddress
        obtain rfl : a / pageSize = i := Nat.eq_of_mul_eq_mul_right (by decide) haddress
        exact absurd ((Nat.div_lt_iff_lt_mul (by decide)).mp hi) hge

/-- A process sees the same memory as long as nobody writes to its pages. -/
theorem unchanged (h : Space mm r t R 0)
    (hkeep : ∀ g, r.Taken g → r'.Taken g ∧ r'.byte g = r.byte g) (a : Nat) :
    translate r' mm.pgd a = translate r mm.pgd a ∧
      userByte mm.pgd r' a = userByte mm.pgd r a := by
  have hown : ∀ g, mm.Frame g ∨ IsTable t g → r.Taken g := by
    rintro g (hg | hg)
    · exact h.taken g (.inr hg)
    · exact (h.tables.own g hg).1
  have h' : Space mm r' t (fun _ => False) 0 :=
    h.congr (fun g hg => (hkeep g (hown g hg)).1) (fun g hg => (hkeep g (hown g (.inr hg))).2)
      fun _ => False.elim
  have hwalk : translate r' mm.pgd a = translate r mm.pgd a := by
    rw [h'.tables.translate_eq, h.tables.translate_eq]
  refine ⟨hwalk, ?_⟩
  rw [userByte, hwalk, userByte]
  cases hg : translate r mm.pgd a with
  | none => rfl
  | some g =>
      rw [Option.map_some, Option.map_some, (hkeep g (hown g (.inl (h.translate_eq hg)))).2]

/-- The walk of the tables after a write to a user page. -/
theorem translate_writeFrame (h : Space mm r t R 0) (hg : mm.Frame g) (byte : Nat → Byte) (a : Nat) :
    translate { r with byte := update r.byte g byte } mm.pgd a = translate r mm.pgd a := by
  rw [h.tables.translate_eq, (h.writeFrame hg byte).1.tables.translate_eq]

theorem userByte_writeFrame (h : Space mm r t R 0) (hva : va < 2 ^ 48) (ha : a < 2 ^ 48)
    (hg : translate r mm.pgd va = some g) (b : Byte) :
    userByte mm.pgd { r with byte := update r.byte g (update (r.byte g) (va % pageSize) b) } a =
      if a = va then some b else userByte mm.pgd r a := by
  have hf := h.translate_eq hg
  rw [userByte, h.translate_writeFrame hf, userByte]
  by_cases he : a = va
  · subst he
    rw [if_pos rfl, hg]
    simp
  · rw [if_neg he]
    cases hg' : translate r mm.pgd a with
    | none => rfl
    | some g' =>
        refine congrArg some ?_
        by_cases hsame : g' = g
        · subst hsame
          have hpage := h.translate_inj hva ha hg hg'
          have hoffset : a % pageSize ≠ va % pageSize := fun hmod => he ?_
          · dsimp only
            rw [update_self, update_of_ne hoffset]
          · rw [← Nat.div_add_mod a pageSize, ← hpage, hmod, Nat.div_add_mod]
        · dsimp only
          rw [update_of_ne hsame]

/-- What is at user addresses after a write to some of them. -/
theorem userByte_storeUser (h : Space mm r t R 0) (hend : va + bytes.length ≤ 2 ^ 48)
    (hstore : r.storeUser mm.pgd va bytes = .ok r') (ha : a < 2 ^ 48) :
    userByte mm.pgd r' a =
      if hin : va ≤ a ∧ a - va < bytes.length then some bytes[a - va] else userByte mm.pgd r a := by
  induction bytes generalizing r va with
  | nil =>
      rw [Ram.storeUser] at hstore
      obtain rfl := Except.ok.inj hstore
      rw [dif_neg fun hin => absurd hin.2 (Nat.not_lt_zero _)]
  | cons b bytes ih =>
      rw [List.length_cons] at hend
      rw [Ram.storeUser] at hstore
      split at hstore
      next => cases hstore
      next g hg =>
        have hwrite := (h.writeFrame (h.translate_eq hg) (update (r.byte g) (va % pageSize) b)).1
        rw [ih hwrite (by omega) hstore, h.userByte_writeFrame (by omega) ha hg]
        by_cases he : a = va
        · subst he
          rw [dif_neg (by omega), if_pos rfl, dif_pos ⟨Nat.le_refl _, by simp⟩]
          simp
        · rw [if_neg he]
          by_cases hin : va + 1 ≤ a ∧ a - (va + 1) < bytes.length
          · have hindex : a - va = a - (va + 1) + 1 := by omega
            rw [dif_pos hin, dif_pos ⟨by omega, by rw [List.length_cons]; omega⟩]
            simp only [hindex, List.getElem_cons_succ]
          · rw [dif_neg hin, dif_neg (by rw [List.length_cons]; omega)]

/-- A string with its end. -/
theorem stringAt_storeUser (h : Space mm r t R 0) (hend : va + s.length < 2 ^ 48)
    (hproper : ∀ b ∈ s, b ≠ 0) (hstore : r.storeUser mm.pgd va (s ++ [0]) = .ok r') :
    StringAt mm.pgd r' va s := by
  have hlen : (s ++ [0]).length = s.length + 1 := by simp
  have hbyte : ∀ i (hi : i < (s ++ [0]).length), userByte mm.pgd r' (va + i) =
      some (s ++ [0])[i] := fun i hi => by
    rw [h.userByte_storeUser (by omega) hstore (by omega), dif_pos ⟨by omega, by omega⟩]
    simp only [Nat.add_sub_cancel_left]
  refine ⟨fun i hi => ?_, ?_, hproper⟩
  · rw [hbyte i (by omega), List.getElem_append_left hi]
  · rw [hbyte s.length (by omega)]
    simp

end Space

/-! ## Arguments on the stack -/

/-- The arguments from number `i` on are below each other, in arrays of
`SYSCALL_EXEC_ARGUMENT_DIMENSION` bytes from `sp` down to `sp'`. -/
structure Pushed (pgd : Nat) (arguments : List (List Byte)) (i sp : Nat) (r : Ram)
    (trapFrame : Nat → Nat) (sp' : Nat) (r' : Ram) (trapFrame' : Nat → Nat) : Prop where
  stackPointer : sp' + execArgumentDimension * arguments.length = sp
  pointer : ∀ j < arguments.length, trapFrame' (i + j + 1) + execArgumentDimension * (j + 1) = sp
  others : ∀ k, k < i + 1 ∨ i + arguments.length < k → trapFrame' k = trapFrame k
  copy : ∀ j (hj : j < arguments.length), StringAt pgd r' (trapFrame' (i + j + 1)) arguments[j]
  rest : ∀ a < 2 ^ 48, a < sp' ∨ sp ≤ a → userByte pgd r' a = userByte pgd r a

namespace Space

variable {mm : MmStruct} {t : Radix.Tree Nat} {R : Nat → Prop} {arguments : List (List Byte)}
  {i sp sp' : Nat} {trapFrame trapFrame' : Nat → Nat}

theorem pushed (h : Space mm r t R 0)
    (hproper : ∀ s ∈ arguments, (∀ b ∈ s, b ≠ 0) ∧ s.length < execArgumentDimension)
    (hsp : sp < 2 ^ 48)
    (hpush : Demoos.pushArguments mm.pgd arguments i sp r trapFrame = .ok (sp', r', trapFrame')) :
    Pushed mm.pgd arguments i sp r trapFrame sp' r' trapFrame' := by
  induction arguments generalizing r i sp trapFrame with
  | nil =>
      rw [Demoos.pushArguments] at hpush
      obtain ⟨rfl, hsame⟩ := Prod.mk.inj (Except.ok.inj hpush)
      obtain ⟨rfl, rfl⟩ := Prod.mk.inj hsame
      exact ⟨rfl, fun _ hj => absurd hj (Nat.not_lt_zero _), fun _ _ => rfl,
        fun _ hj => absurd hj (Nat.not_lt_zero _), fun _ _ _ => rfl⟩
  | cons argument arguments ih =>
      obtain ⟨⟨hargument, hlen⟩, hrest⟩ := List.forall_mem_cons.mp hproper
      rw [Demoos.pushArguments] at hpush
      split at hpush
      next => cases hpush
      split at hpush
      next => cases hpush
      next hroom =>
        obtain ⟨r₁, hstore, hpush⟩ := bind_ok hpush
        have hspace := (h.storeUser hstore).1
        obtain ⟨hend, hpointer, hothers, hcopy, hbelow⟩ := ih hspace hrest (by omega) hpush
        have hstring : StringAt mm.pgd r₁ (sp - execArgumentDimension) argument :=
          h.stringAt_storeUser (by omega) hargument hstore
        have hfirst : trapFrame' (i + 1) = sp - execArgumentDimension := by
          rw [hothers (i + 1) (.inl (by omega)), update_self]
        refine ⟨?_, fun j hj => ?_, fun k hk => ?_, fun j hj => ?_, fun a ha hout => ?_⟩
        · rw [List.length_cons, Nat.mul_succ]
          omega
        · cases j with
          | zero =>
              rw [Nat.add_zero, hfirst]
              omega
          | succ j =>
              have hj' := hpointer j (Nat.lt_of_succ_lt_succ hj)
              rw [show i + (j + 1) + 1 = i + 1 + j + 1 by omega, Nat.mul_succ]
              omega
        · rw [List.length_cons] at hk
          rw [hothers k (by omega), update_of_ne (by omega)]
        · cases j with
          | zero =>
              rw [Nat.add_zero, hfirst]
              refine hstring.congr fun x hx => hbelow _ (by omega) (.inr (by omega))
          | succ j =>
              rw [show i + (j + 1) + 1 = i + 1 + j + 1 by omega]
              exact hcopy j (Nat.lt_of_succ_lt_succ hj)
        · rw [hbelow a ha (by omega), h.userByte_storeUser ?_ hstore ha, dif_neg ?_]
          · rw [List.length_append, List.length_singleton]
            omega
          · rw [List.length_append, List.length_singleton]
            omega

end Space

end Demoos
