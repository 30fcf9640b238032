import Demoos.Shell.Segments

/-!
# Paths that climb

A `..` takes away the slash in front of it, with the name there.  With nothing left to take away,
`normalize_path` moves its index in front of the path.

`climb` counts, from the text of the path, the slashes that are left.  A segment that ends in one dot
loses its slash, so that a name is left behind the last one, and the next `..` takes away
that name only.
-/

namespace Demoos

open CString (Stands)

/-! ## The count -/

/-- A segment of the path, with the slashes that are left and whether there is a name behind
the last one.  There is no result if a `..` finds neither. -/
def climb : Nat × Bool → List CChar → Option (Nat × Bool)
  | (n, named), w =>
      if w = [dot] then some (n, named)
      else if w = [dot, dot] then
        if named then some (n, false) else if n = 0 then none else some (n - 1, false)
      else if [dot, dot] <:+ w then some (n, false)
      else if [dot] <:+ w then some (n, true)
      else some (n + 1, false)

/-- No `..` of the path climbs above what is left. -/
def StaysBelow (xs : List CChar) : Prop := ((xs.splitOn slash).foldlM climb (0, false)).isSome

instance (xs : List CChar) : Decidable (StaysBelow xs) :=
  inferInstanceAs (Decidable (Option.isSome _ = true))

/-- The call returns, with all indexes in a path of length `n`. -/
def StaysInBuffer (path : Int → CChar) (n : Nat) : Prop :=
  ∃ fuel t, normalizePath fuel path = some t ∧ t.Within n

/-! ## The count of a stack -/

/-- Is there a name behind the last slash? -/
def named : List CChar → Bool
  | [] => false
  | c :: _ => c ≠ slash

def height (acc : List CChar) : Nat × Bool := (acc.count slash, named acc)

theorem height_dropWhile (acc : List CChar) :
    height (acc.dropWhile (· ≠ slash)) = (acc.count slash, false) := by
  induction acc with
  | nil => rfl
  | cons c acc ih =>
      by_cases hc : c = slash
      · rw [List.dropWhile_cons_of_neg (by simpa using hc), height, hc]
        rfl
      · rw [List.dropWhile_cons_of_pos (by simpa using hc), ih, List.count_cons_of_ne hc]

theorem count_name {v acc : List CChar} (hv : slash ∉ v) :
    (v.reverse ++ acc).count slash = acc.count slash := by
  rw [List.count_append, List.count_reverse, List.count_eq_zero_of_not_mem hv, Nat.zero_add]

theorem named_name {v acc : List CChar} (hv : slash ∉ v) (hne : v ≠ []) :
    named (v.reverse ++ acc) = true := by
  cases hrev : v.reverse with
  | nil => exact absurd (List.reverse_eq_nil_iff.mp hrev) hne
  | cons c r =>
      have hc : c ∈ v := List.mem_reverse.mp (hrev ▸ List.mem_cons_self)
      have hslash : c ≠ slash := fun he => hv (he ▸ hc)
      simpa [named] using hslash

theorem height_slash (acc : List CChar) : height (slash :: acc) = (acc.count slash + 1, false) := by
  rw [height, List.count_cons_self]
  rfl

theorem height_char {c : CChar} (acc : List CChar) (hc : c ≠ slash) :
    height (c :: acc) = (acc.count slash, true) := by
  rw [height, List.count_cons_of_ne hc, named, decide_eq_true hc]

theorem climb_dotDot (acc : List CChar) :
    climb (height acc) [dot, dot] = (up acc).map height := by
  have hdots : ([dot, dot] : List CChar) ≠ [dot] := by decide
  cases acc with
  | nil => rfl
  | cons c acc =>
      have hup : (up (c :: acc)).map height = some (acc.count slash, false) :=
        congrArg some (height_dropWhile acc)
      rw [hup]
      by_cases hc : c = slash
      · rw [hc, height_slash, climb, if_neg hdots, if_pos rfl, if_neg Bool.false_ne_true,
          if_neg (Nat.succ_ne_zero _), Nat.add_sub_cancel]
      · rw [height_char acc hc, climb, if_neg hdots, if_pos rfl, if_pos rfl]

theorem append_ne_of_length {v xs ys : List CChar} (hv : v ≠ []) (hlen : ys.length ≤ xs.length) :
    v ++ xs ≠ ys := by
  intro he
  have hpos := List.length_pos_iff.mpr hv
  have hsum := congrArg List.length he
  rw [List.length_append] at hsum
  omega

/-- The count follows the stack. -/
theorem climb_height {w : List CChar} (acc : List CChar) (hw : slash ∉ w) :
    climb (height acc) w = (enter [slash] acc w).map height := by
  rcases segment_cases w with rfl | rfl | ⟨v, hne, rfl⟩ | ⟨v, hne, hdot, rfl⟩ | hdot
  · rw [enter_dot]
    rfl
  · rw [enter_dotDot]
    exact climb_dotDot acc
  · have hv : slash ∉ v := fun hs => hw (List.mem_append_left _ hs)
    rw [enter_append_dotDot, up_name acc hv hne, height, climb,
      if_neg (append_ne_of_length hne (by simp)), if_neg (append_ne_of_length hne (by simp)),
      if_pos (List.suffix_append v _)]
    exact congrArg some (height_dropWhile acc).symm
  · have hv : slash ∉ v := fun hs => hw (List.mem_append_left _ hs)
    have hup : ¬ [dot, dot] <:+ v ++ [dot] := by
      rintro ⟨t, ht⟩
      have ht : (t ++ [dot]) ++ [dot] = v ++ [dot] := by rw [List.append_assoc]; exact ht
      exact hdot ⟨t, List.append_cancel_right ht⟩
    have htwo : v ++ [dot] ≠ [dot, dot] := fun he => hup (he ▸ List.suffix_refl _)
    rw [enter_append_dot _ _ hdot, height, climb, if_neg (append_ne_of_length hne (by simp)),
      if_neg htwo, if_neg hup, if_pos (List.suffix_append v _), Option.map_some, height,
      count_name hv, named_name hv hne]
  · have hup : ¬ [dot, dot] <:+ w := fun hup => hdot ((List.suffix_cons dot [dot]).trans hup)
    have hone : w ≠ [dot] := fun he => hdot (he ▸ List.suffix_refl _)
    have htwo : w ≠ [dot, dot] := fun he => hup (he ▸ List.suffix_refl _)
    have hclose : [slash] ++ (w.reverse ++ acc) = slash :: (w.reverse ++ acc) := rfl
    rw [enter_name _ _ hdot, hclose, Option.map_some, height_slash, count_name hw, height, climb,
      if_neg hone, if_neg htwo, if_neg hup, if_neg hdot]

/-! ## The whole path -/

theorem enter_eq_none {close close' acc w : List CChar} (h : enter close acc w = none) :
    enter close' acc w = none := by
  rw [enter] at h ⊢
  split at h
  next hup => rw [if_pos hup]; exact h
  next => split at h <;> cases h

theorem scanned_eq_none_iff (xs acc : List CChar) :
    scanned acc (xs.splitOn slash) = none ↔
      (xs.splitOn slash).foldlM climb (height acc) = none := by
  induction xs using Paths.segment_induction slash generalizing acc with
  | last w hw =>
      rw [List.splitOn_eq_singleton hw, List.foldlM_cons, climb_height acc hw]
      have hone : scanned acc [w] = none ↔ enter [slash] acc w = none :=
        ⟨enter_eq_none, enter_eq_none⟩
      rw [hone]
      cases enter [slash] acc w <;> simp
  | more w rest hw ih =>
      rw [List.splitOn_append_cons_self_of_not_mem hw, List.foldlM_cons, climb_height acc hw,
        scanned_cons acc w (List.splitOn_ne_nil slash rest)]
      cases enter [slash] acc w with
      | none => simp
      | some acc' => exact ih acc'

/-- A path that climbs above what is left moves the index in front of the path. -/
theorem not_staysInBuffer {path : Int → CChar} {xs : List CChar}
    (h : Stands (fun i : Nat => path i) xs) (hscan : scanned [] (xs.splitOn slash) = none) :
    ¬ StaysInBuffer path xs.length := by
  rintro ⟨fuel, t, hrun, hwithin⟩
  rcases (Scan.holds_start h).scans with ⟨acc, hsome, _⟩ | ⟨_, u, mid, r, hleads, hu, hend⟩
  · exact absurd (hscan.symm.trans hsome) nofun
  · have hends : Scan.Ends u t := (hleads t).mp ⟨fuel, hrun⟩
    have hposition := ((hu.leads t).mp hends).position
    have hwrite := (hu.under hend).2
    have hbound := (hwithin.positions _ hposition).1
    dsimp only at hbound
    omega

/-- The indexes stay in the path exactly if no `..` climbs above what is left. -/
theorem staysInBuffer_iff {path : Int → CChar} {xs : List CChar}
    (h : Stands (fun i : Nat => path i) xs) :
    StaysInBuffer path xs.length ↔ StaysBelow xs := by
  constructor
  · intro hstays
    by_contra hbelow
    refine not_staysInBuffer h ?_ hstays
    exact (scanned_eq_none_iff xs []).mpr (Option.not_isSome_iff_eq_none.mp hbelow)
  · intro hbelow
    rcases (Scan.holds_start h).scans with ⟨acc, _, u, mid, hleads, hu⟩ | ⟨hnone, _⟩
    · obtain ⟨fuel, hrun⟩ := (hleads _).mpr ((Scan.ends_finish hu.at_end).mpr rfl)
      exact ⟨fuel, _, hrun, hu.finish.1⟩
    · have hclimb := (scanned_eq_none_iff xs []).mp hnone
      exact absurd hbelow (Option.not_isSome_iff_eq_none.mpr hclimb)

/-! ## Two paths -/

/-- A path in a memory of zeros. -/
def memoryOf (xs : List CChar) (i : Int) : CChar := if 0 ≤ i then xs.getD i.toNat 0 else 0

theorem stands_memoryOf {xs : List CChar} (h : ∀ x ∈ xs, x ≠ 0) :
    Stands (fun i : Nat => memoryOf xs i) xs where
  text i hi := by simp [memoryOf, hi]
  ended := by simp [memoryOf]
  proper := h

/-- `/a/../b` -/
theorem staysInBuffer_parent :
    StaysInBuffer (memoryOf [slash, 97, slash, dot, dot, slash, 98]) 7 :=
  (staysInBuffer_iff (stands_memoryOf (by decide))).mpr (by decide)

/-- `/../../`, which `cd ../..` makes in the root directory. -/
theorem not_staysInBuffer_root :
    Stands (fun i : Nat => memoryOf [slash, dot, dot, slash, dot, dot, slash] i)
        [slash, dot, dot, slash, dot, dot, slash] ∧
      ¬ StaysInBuffer (memoryOf [slash, dot, dot, slash, dot, dot, slash]) 7 :=
  ⟨stands_memoryOf (by decide), not_staysInBuffer (stands_memoryOf (by decide)) (by decide)⟩

end Demoos
