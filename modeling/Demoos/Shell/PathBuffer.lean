import Demoos.Shell.Climbing
import Demoos.Shell.Strings

/-!
# `normalize_path` on an array

The call succeeds if the indexes that it touches are in the array.  An index that has gone in front of
the path is stored through before the call returns, so the array is left exactly if a `..` climbs above
what is left.
-/

namespace Demoos

open CString (Stands)

/-! ## Touched indexes -/

namespace Scan

variable {s t u : Scan} {fuel : Nat}

theorem touched_look (s : Scan) (i : Int) : s.touched ⊆ (s.look i).touched :=
  List.subset_cons_self i s.touched

theorem touched_backUp (fuel : Nat) (s : Scan) : s.touched ⊆ (backUp fuel s).touched := by
  induction fuel generalizing s with
  | zero => exact List.Subset.refl _
  | succ fuel ih =>
      unfold backUp
      split
      next =>
        dsimp only
        split
        next =>
          have hrest := ih { s.look (s.write - 1) with write := s.write - 1 }
          exact List.Subset.trans (touched_look s _) hrest
        next => exact touched_look s _
      next => exact List.Subset.refl _

theorem touched_lookAhead (s : Scan) : s.touched ⊆ s.lookAhead.touched := by
  unfold lookAhead
  split
  next =>
    split
    next =>
      have htwo := List.Subset.trans (touched_look s s.read) (touched_look _ (s.read + 1))
      exact List.Subset.trans htwo (touched_look _ _)
    next => exact List.Subset.trans (touched_look s _) (touched_look _ _)
  next => exact touched_look s _

theorem touched_next (s : Scan) : s.touched ⊆ s.next.touched := by
  have hahead : s.touched ⊆ s.test.lookAhead.touched :=
    List.Subset.trans (touched_look s s.read) (touched_lookAhead s.test)
  rw [next_eq]
  split
  next => exact hahead
  next =>
    split
    next =>
      refine List.Subset.trans ?_ (touched_backUp _ _)
      exact hahead
    next => exact List.Subset.trans hahead (List.subset_cons_self _ _)

theorem touched_finish (s : Scan) : s.touched ⊆ s.finish.touched := by
  have hstore : ∀ (s : Scan) (i : Int) (c : CChar), s.touched ⊆ (s.store i c).touched :=
    fun s i _ => List.subset_cons_self i s.touched
  unfold finish
  dsimp only
  split
  next => exact List.Subset.trans (hstore s _ _) (List.Subset.trans (hstore _ _ _) (hstore _ _ _))
  next => exact hstore s _ _

theorem touched_run (h : run fuel s = some t) : s.touched ⊆ t.touched := by
  induction fuel generalizing s with
  | zero => cases h
  | succ fuel ih =>
      rw [run] at h
      split at h
      next =>
        obtain rfl := Option.some.inj h
        exact List.Subset.trans (touched_look s s.read) (touched_finish s.test)
      next => exact List.Subset.trans (touched_next s) (ih h)

/-- With its index in front of the path the scan touches what is there. -/
theorem exists_touched_of_run (h : run fuel s = some t) (hwrite : s.write < 0) :
    ∃ i ∈ t.touched, i < 0 := by
  induction fuel generalizing s with
  | zero => cases h
  | succ fuel ih =>
      rw [run] at h
      split at h
      next =>
        obtain rfl := Option.some.inj h
        refine ⟨s.write, ?_, hwrite⟩
        have hne : ¬ (s.test.store s.write 0).write = 0 := Int.ne_of_lt hwrite
        change s.write ∈ s.test.finish.touched
        unfold finish
        dsimp only
        split
        next hzero => exact absurd hzero hne
        next => exact List.mem_cons_self
      next =>
        change run fuel s.next = some t at h
        rw [next_eq] at h
        split at h
        next =>
          refine ih h ?_
          change s.test.lookAhead.write < 0
          rwa [write_lookAhead]
        next =>
          split at h
          next =>
            have hzero : s.write.toNat = 0 := Int.toNat_of_nonpos (Int.le_of_lt hwrite)
            rw [hzero] at h
            exact ih h (Int.sub_neg_of_lt (by omega))
          next => exact ⟨s.write, touched_run h List.mem_cons_self, hwrite⟩

end Scan

/-! ## The array -/

namespace Shell

open Buffer

variable {n fuel : Nat} {b b' : Buffer CChar n} {xs : List CChar}

/-- What stands around an array is not read. -/
def memory (b : Buffer CChar n) (i : Int) : CChar := if 0 ≤ i then b.byte i.toNat else 0

/-- `normalize_path`, if it stays in the array. -/
def normalize (fuel : Nat) (b : Buffer CChar n) : Option (Buffer CChar n) := do
  let t ← normalizePath fuel (memory b)
  if ∀ i ∈ t.touched, 0 ≤ i ∧ i < n then some ⟨fun i => t.path i⟩ else none

theorem stands_memory (h : Holds b xs) : Stands (fun i : Nat => memory b i) xs :=
  h.stands.congr fun i _ => by simp [memory]

/-- All calls that end leave the same string. -/
theorem normalize_of_staysBelow (h : Holds b xs) (hn : 1 < n) (hbelow : StaysBelow xs) :
    ∃ b₀ ys, Holds b₀ ys ∧ ∀ b', (∃ fuel, normalize fuel b = some b') ↔ b' = b₀ := by
  rcases (Scan.holds_start (stands_memory h)).scans with ⟨acc, _, u, mid, hleads, hu⟩ | ⟨hnone, _⟩
  · obtain ⟨hwithin, hstands⟩ := hu.finish
    have hlen := hu.length
    have hin := h.inside
    have htouched : ∀ i ∈ u.test.finish.touched, 0 ≤ i ∧ i < n := by
      intro i hi
      have hbound := hwithin.touched i hi
      omega
    refine ⟨⟨fun i => u.test.finish.path i⟩, _, ⟨hstands, ?_⟩, fun b' => ⟨?_, ?_⟩⟩
    · unfold Scan.result
      split
      next => exact hn
      next =>
        rw [List.length_reverse]
        omega
    · rintro ⟨fuel, hrun⟩
      obtain ⟨t, hnormal, htest⟩ := Option.bind_eq_some_iff.mp hrun
      obtain rfl := (Scan.ends_finish hu.at_end).mp ((hleads t).mp ⟨fuel, hnormal⟩)
      rw [if_pos htouched] at htest
      exact (Option.some.inj htest).symm
    · rintro rfl
      obtain ⟨fuel, hrun⟩ := (hleads _).mpr ((Scan.ends_finish hu.at_end).mpr rfl)
      have hnormal : normalizePath fuel (memory b) = some u.test.finish := hrun
      exact ⟨fuel, Option.bind_eq_some_iff.mpr ⟨_, hnormal, if_pos htouched⟩⟩
  · have hclimb := (scanned_eq_none_iff xs []).mp hnone
    exact absurd hbelow (Option.not_isSome_iff_eq_none.mpr hclimb)

theorem staysBelow_of_normalize (h : Holds b xs) (hrun : normalize fuel b = some b') :
    StaysBelow xs := by
  by_contra hbelow
  have hscan := (scanned_eq_none_iff xs []).mpr (Option.not_isSome_iff_eq_none.mp hbelow)
  rcases (Scan.holds_start (stands_memory h)).scans with
    ⟨acc, hsome, _⟩ | ⟨_, u, mid, r, hleads, hu, hend⟩
  · rw [hscan] at hsome
    cases hsome
  · obtain ⟨t, hnormal, htest⟩ := Option.bind_eq_some_iff.mp hrun
    have hends : Scan.Ends u t := (hleads t).mp ⟨fuel, hnormal⟩
    obtain ⟨fuel', hnext⟩ := (hu.leads t).mp hends
    have hwrite : u.next.write < 0 := by
      rw [(hu.under hend).2]
      decide
    obtain ⟨i, hi, hneg⟩ := Scan.exists_touched_of_run hnext hwrite
    have hout : ¬ ∀ i ∈ t.touched, 0 ≤ i ∧ i < n := fun hall => by
      have hbound := (hall i hi).1
      omega
    rw [if_neg hout] at htest
    cases htest

end Shell

end Demoos
