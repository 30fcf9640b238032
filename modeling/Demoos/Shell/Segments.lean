import Demoos.Lib.Paths
import Demoos.Shell.NormalizePath
import Mathlib.Data.List.DropRight

/-!
# The segments of a path

The scan goes through the segments of the path and pushes or pops (`enter`), until all of it is
read or there is nothing to pop (`scanned`).  It looks for a `.` and a `..` at each
character, so it finds them at the end of a longer segment too.
-/

namespace Demoos

open CString (Stands)

/-- `..`, on a stack that ends with a slash or with a name behind one. -/
def up : List CChar → Option (List CChar)
  | [] => none
  | _ :: acc => some (acc.dropWhile (· ≠ slash))

/-- The segment `w`, which `close` ends, on the stack `acc`.  The code looks at the end of the
segment only. -/
def enter (close acc w : List CChar) : Option (List CChar) :=
  if [dot, dot] <:+ w then up ((w.rdrop 2).reverse ++ acc)
  else if [dot] <:+ w then some ((w.rdrop 1).reverse ++ acc)
  else some (close ++ (w.reverse ++ acc))

/-- The segments of a path.  The last one is not ended by a slash. -/
def scanned : List CChar → List (List CChar) → Option (List CChar)
  | acc, [] => some acc
  | acc, [w] => enter [] acc w
  | acc, w :: ws => (enter [slash] acc w).bind (scanned · ws)

theorem scanned_cons {ws : List (List CChar)} (acc w : List CChar) (hws : ws ≠ []) :
    scanned acc (w :: ws) = (enter [slash] acc w).bind (scanned · ws) := by
  cases ws with
  | nil => exact absurd rfl hws
  | cons v ws => rfl

/-! ## Kinds of segments -/

section Kinds

variable {w v : List CChar} (close acc : List CChar)

/-- A segment by its last two characters. -/
theorem segment_cases (w : List CChar) :
    w = [dot] ∨ w = [dot, dot] ∨ (∃ v, v ≠ [] ∧ w = v ++ [dot, dot]) ∨
      (∃ v, v ≠ [] ∧ ¬ [dot] <:+ v ∧ w = v ++ [dot]) ∨ ¬ [dot] <:+ w := by
  by_cases hdot : [dot] <:+ w
  · obtain ⟨v, rfl⟩ := hdot
    by_cases hup : [dot] <:+ v
    · obtain ⟨v, rfl⟩ := hup
      rw [List.append_assoc]
      by_cases hv : v = []
      · subst hv
        exact .inr (.inl rfl)
      · exact .inr (.inr (.inl ⟨v, hv, rfl⟩))
    · by_cases hv : v = []
      · subst hv
        exact .inl rfl
      · exact .inr (.inr (.inr (.inl ⟨v, hv, hup, rfl⟩)))
  · exact .inr (.inr (.inr (.inr hdot)))

theorem enter_append_dotDot (v : List CChar) :
    enter close acc (v ++ [dot, dot]) = up (v.reverse ++ acc) := by
  have hv : (v ++ [dot, dot]).rdrop 2 = v := by
    rw [List.rdrop, List.length_append]
    exact List.take_left
  rw [enter, if_pos (List.suffix_append v _), hv]

theorem enter_append_dot (hv : ¬ [dot] <:+ v) :
    enter close acc (v ++ [dot]) = some (v.reverse ++ acc) := by
  have hdrop : (v ++ [dot]).rdrop 1 = v := by
    rw [List.rdrop, List.length_append]
    exact List.take_left
  have hup : ¬ [dot, dot] <:+ v ++ [dot] := by
    rintro ⟨t, ht⟩
    have ht : (t ++ [dot]) ++ [dot] = v ++ [dot] := by rw [List.append_assoc]; exact ht
    exact hv ⟨t, List.append_cancel_right ht⟩
  rw [enter, if_neg hup, if_pos (List.suffix_append v _), hdrop]

theorem enter_dot : enter close acc [dot] = some acc :=
  enter_append_dot close acc (v := []) (by decide)

theorem enter_dotDot : enter close acc [dot, dot] = up acc := enter_append_dotDot close acc []

theorem enter_name (hw : ¬ [dot] <:+ w) : enter close acc w = some (close ++ (w.reverse ++ acc)) := by
  rw [enter, if_neg (fun hup => hw ((List.suffix_cons dot [dot]).trans hup)), if_neg hw]

/-- A `..` behind a name takes away the name. -/
theorem up_name (hv : slash ∉ v) (hne : v ≠ []) :
    up (v.reverse ++ acc) = some (acc.dropWhile (· ≠ slash)) := by
  obtain ⟨v, c, rfl⟩ : ∃ v' c, v = v' ++ [c] := by
    rcases List.eq_nil_or_concat v with h | ⟨v', c, h⟩
    · exact absurd h hne
    · exact ⟨v', c, h.trans List.concat_eq_append⟩
  rw [List.reverse_append]
  have hall : ∀ x ∈ v.reverse, (decide (x ≠ slash)) = true := by
    intro x hx
    rw [decide_eq_true_eq]
    rintro rfl
    exact hv (List.mem_append_left _ (List.mem_reverse.mp hx))
  exact congrArg some (List.dropWhile_append_of_pos hall)

end Kinds

namespace Scan

variable {s t u : Scan} {n : Nat} {acc mid rest w : List CChar} {c : CChar}

/-! ## One segment -/

theorem atEnd_append {v r : List CChar} (hv : slash ∉ v) (hend : AtEnd (v ++ r)) : v = [] := by
  cases v with
  | nil => rfl
  | cons c v =>
      rcases hend with hnil | ⟨_, hr⟩
      · exact absurd hnil (by simp)
      · obtain rfl := (List.cons.inj hr).1
        exact absurd List.mem_cons_self hv

/-- A segment that begins with a `.` and ends there. -/
theorem eq_dot {r r' : List CChar} (hw : slash ∉ w) (hr : AtEnd r) (he : w ++ r = dot :: r')
    (hend : AtEnd r') : w = [dot] := by
  cases w with
  | nil =>
      rcases hr with rfl | ⟨_, rfl⟩
      · exact absurd he (by simp)
      · exact absurd (List.cons.inj he).1 (by decide)
  | cons c w =>
      obtain ⟨rfl, rfl⟩ := List.cons.inj he
      rw [atEnd_append (fun hc => hw (List.mem_cons_of_mem _ hc)) hend]

/-- A segment that begins with `..` and ends there. -/
theorem eq_dotDot {r r' : List CChar} (hw : slash ∉ w) (hr : AtEnd r)
    (he : w ++ r = dot :: dot :: r') (hend : AtEnd r') : w = [dot, dot] := by
  cases w with
  | nil =>
      rcases hr with rfl | ⟨_, rfl⟩
      · exact absurd he (by simp)
      · exact absurd (List.cons.inj he).1 (by decide)
  | cons c w =>
      obtain ⟨rfl, hrest⟩ := List.cons.inj he
      rw [eq_dot (fun hc => hw (List.mem_cons_of_mem _ hc)) hr hrest hend]

/-- Both scans end in the same way. -/
def Leads (s u : Scan) : Prop := ∀ t, Ends s t ↔ Ends u t

theorem Leads.trans {v : Scan} (h : Leads s u) (h' : Leads u v) : Leads s v :=
  fun t => (h t).trans (h' t)

theorem Holds.leads (h : Holds n s acc mid (c :: rest)) : Leads s s.next := fun _ =>
  ends_next (by rw [h.at_read]; exact h.ne_zero List.mem_cons_self)

/-- A part of a segment in which no `.` and no `..` begins that ends it. -/
theorem Holds.copies {v r : List CChar} (h : Holds n s acc mid (v ++ r))
    (hdot : ∀ v', v' ≠ [] → v' <:+ v → ¬ ∃ r', v' ++ r = dot :: r' ∧ AtEnd r')
    (hup : ∀ v', v' ≠ [] → v' <:+ v → ¬ ∃ r', v' ++ r = dot :: dot :: r' ∧ AtEnd r') :
    ∃ u mid', Leads s u ∧ Holds n u (v.reverse ++ acc) mid' r := by
  induction v generalizing s acc mid with
  | nil => exact ⟨s, mid, fun _ => Iff.rfl, h⟩
  | cons c v ih =>
      have hself : c :: v <:+ c :: v := List.suffix_refl _
      obtain ⟨mid', hnext⟩ := h.copy (hdot _ (List.cons_ne_nil c v) hself)
        (hup _ (List.cons_ne_nil c v) hself)
      obtain ⟨u, mid'', hleads, hu⟩ := ih hnext
        (fun v' hne hv' => hdot v' hne (hv'.trans (List.suffix_cons c v)))
        fun v' hne hv' => hup v' hne (hv'.trans (List.suffix_cons c v))
      rw [List.reverse_cons, List.append_assoc]
      exact ⟨u, mid'', h.leads.trans hleads, hu⟩

/-- How a segment ends: with a slash, or with the path. -/
def Closes (close rest : List CChar) : Prop := close = [slash] ∨ close = [] ∧ rest = []

theorem Closes.atEnd {close : List CChar} (h : Closes close rest) : AtEnd (close ++ rest) := by
  rcases h with rfl | ⟨rfl, rfl⟩
  · exact .inr ⟨rest, rfl⟩
  · exact .inl rfl

theorem Closes.tail {close : List CChar} (h : Closes close rest) : (close ++ rest).tail = rest := by
  rcases h with rfl | ⟨rfl, rfl⟩ <;> rfl

/-- A segment that does not end in a dot is pushed, with its slash. -/
theorem Holds.name {close : List CChar} (h : Holds n s acc mid (w ++ (close ++ rest)))
    (hw : slash ∉ w) (hclose : Closes close rest) (hdot : ¬ [dot] <:+ w) :
    ∃ u mid', Leads s u ∧ Holds n u (close ++ (w.reverse ++ acc)) mid' rest := by
  obtain ⟨u, mid', hleads, hu⟩ := h.copies
    (fun v _ hv ⟨r, he, hend⟩ => hdot <| by
      rw [eq_dot (fun hs => hw (hv.mem hs)) hclose.atEnd he hend] at hv
      exact hv)
    fun v _ hv ⟨r, he, hend⟩ => hdot <| by
      rw [eq_dotDot (fun hs => hw (hv.mem hs)) hclose.atEnd he hend] at hv
      exact (List.suffix_cons dot [dot]).trans hv
  rcases hclose with rfl | ⟨rfl, rfl⟩
  · obtain ⟨mid'', hu'⟩ := hu.copy (fun ⟨r, he, _⟩ => absurd (List.cons.inj he).1 (by decide))
      fun ⟨r, he, _⟩ => absurd (List.cons.inj he).1 (by decide)
    exact ⟨u.next, mid'', hleads.trans hu.leads, hu'⟩
  · exact ⟨u, mid', hleads, hu⟩

theorem not_mem_suffix {v xs : List CChar} (hw : slash ∉ w ++ xs) (hv : v <:+ w) :
    slash ∉ v ++ xs := by
  obtain ⟨t, rfl⟩ := hv
  rw [List.append_assoc] at hw
  exact fun hs => hw (List.mem_append_right t hs)

/-- One that ends in one dot is pushed without its dot and its slash. -/
theorem Holds.partOf {close : List CChar} (h : Holds n s acc mid ((w ++ [dot]) ++ (close ++ rest)))
    (hw : slash ∉ w ++ [dot]) (hclose : Closes close rest) (hdot : ¬ [dot] <:+ w) :
    ∃ u mid', Leads s u ∧ Holds n u (w.reverse ++ acc) mid' rest := by
  rw [List.append_assoc] at h
  obtain ⟨u, mid', hleads, hu⟩ := h.copies
    (fun v hne hv ⟨r, he, hend⟩ => by
      rw [← List.append_assoc] at he
      have hlen := congrArg List.length (eq_dot (not_mem_suffix hw hv) hclose.atEnd he hend)
      exact hne (List.eq_nil_of_length_eq_zero (by simpa using hlen)))
    fun v hne hv ⟨r, he, hend⟩ => by
      rw [← List.append_assoc] at he
      have hdots := eq_dotDot (not_mem_suffix hw hv) hclose.atEnd he hend
      obtain rfl : v = [dot] := List.append_cancel_right (show v ++ [dot] = [dot] ++ [dot] from hdots)
      exact hdot hv
  have hu : Holds n u (w.reverse ++ acc) mid' (dot :: (close ++ rest)) := hu
  obtain ⟨mid'', hu'⟩ := hu.skipDot hclose.atEnd
  rw [hclose.tail] at hu'
  exact ⟨u.next, mid'', hleads.trans hu.leads, hu'⟩

/-- One that ends in two dots is pushed without them, in front of the `..`. -/
theorem Holds.partOf_dotDot {close : List CChar}
    (h : Holds n s acc mid ((w ++ [dot, dot]) ++ (close ++ rest))) (hw : slash ∉ w ++ [dot, dot])
    (hclose : Closes close rest) :
    ∃ u mid', Leads s u ∧ Holds n u (w.reverse ++ acc) mid' (dot :: dot :: (close ++ rest)) := by
  rw [List.append_assoc] at h
  refine h.copies (fun v hne hv ⟨r, he, hend⟩ => ?_) fun v hne hv ⟨r, he, hend⟩ => ?_
  · rw [← List.append_assoc] at he
    have hlen := congrArg List.length (eq_dot (not_mem_suffix hw hv) hclose.atEnd he hend)
    exact absurd hlen (by simp)
  · rw [← List.append_assoc] at he
    have hlen := congrArg List.length (eq_dotDot (not_mem_suffix hw hv) hclose.atEnd he hend)
    exact hne (List.eq_nil_of_length_eq_zero (by simpa using hlen))

/-- A segment is entered, or there is nothing to pop. -/
theorem Holds.segment {close : List CChar} (h : Holds n s acc mid (w ++ (close ++ rest)))
    (hw : slash ∉ w) (hclose : Closes close rest) :
    (∃ acc', enter close acc w = some acc' ∧ ∃ u mid', Leads s u ∧ Holds n u acc' mid' rest) ∨
      (enter close acc w = none ∧
        ∃ u mid', Leads s u ∧ Holds n u [] mid' (dot :: dot :: (close ++ rest))) := by
  by_cases hdot : [dot] <:+ w
  · obtain ⟨v, rfl⟩ := hdot
    by_cases hup : [dot] <:+ v
    · obtain ⟨v, rfl⟩ := hup
      rw [List.append_assoc v] at h hw ⊢
      obtain ⟨u, mid', hleads, hu⟩ := h.partOf_dotDot hw hclose
      change (∃ acc', enter close acc (v ++ [dot, dot]) = some acc' ∧ _) ∨
        (enter close acc (v ++ [dot, dot]) = none ∧ _)
      rw [enter_append_dotDot]
      cases hacc : v.reverse ++ acc with
      | nil =>
          rw [hacc] at hu
          exact .inr ⟨rfl, u, mid', hleads, hu⟩
      | cons c acc' =>
          rw [hacc] at hu
          obtain ⟨mid'', hu'⟩ := hu.pop hclose.atEnd
          rw [hclose.tail] at hu'
          exact .inl ⟨_, rfl, u.next, mid'', hleads.trans hu.leads, hu'⟩
    · exact .inl ⟨_, enter_append_dot close acc hup, h.partOf hw hclose hup⟩
  · exact .inl ⟨_, enter_name close acc hdot, h.name hw hclose hdot⟩

/-! ## The whole path -/

/-- The scan reads the whole path, or it comes to a `..` with nothing to pop. -/
theorem Holds.scans {xs : List CChar} (h : Holds n s acc mid xs) :
    (∃ acc', scanned acc (xs.splitOn slash) = some acc' ∧
      ∃ u mid', Leads s u ∧ Holds n u acc' mid' []) ∨
    (scanned acc (xs.splitOn slash) = none ∧
      ∃ u mid' r, Leads s u ∧ Holds n u [] mid' (dot :: dot :: r) ∧ AtEnd r) := by
  induction xs using Paths.segment_induction slash generalizing s acc mid with
  | last w hw =>
      have hclose : Closes [] [] := .inr ⟨rfl, rfl⟩
      have hlast : Holds n s acc mid (w ++ ([] ++ [])) := by
        rw [List.append_nil, List.append_nil]
        exact h
      rw [List.splitOn_eq_singleton hw]
      refine (hlast.segment hw hclose).imp_right ?_
      rintro ⟨hnone, u, mid', hleads, hu⟩
      exact ⟨hnone, u, mid', _, hleads, hu, hclose.atEnd⟩
  | more w rest hw ih =>
      have hclose : Closes [slash] rest := .inl rfl
      rw [List.splitOn_append_cons_self_of_not_mem hw,
        scanned_cons acc w (List.splitOn_ne_nil slash rest)]
      have hfirst : Holds n s acc mid (w ++ ([slash] ++ rest)) := h
      rcases hfirst.segment hw hclose with
        ⟨acc', henter, u, mid', hleads, hu⟩ | ⟨henter, u, mid', hleads, hu⟩
      · rw [henter, Option.bind_some]
        refine (ih hu).imp ?_ ?_
        · rintro ⟨acc'', hscan, v, mid'', hleads', hv⟩
          exact ⟨acc'', hscan, v, mid'', hleads.trans hleads', hv⟩
        · rintro ⟨hscan, v, mid'', r, hleads', hv⟩
          exact ⟨hscan, v, mid'', r, hleads.trans hleads', hv⟩
      · rw [henter]
        exact .inr ⟨rfl, u, mid', _, hleads, hu, hclose.atEnd⟩

/-- The scan of the segments up to a slash. -/
theorem Holds.front {front rest acc' : List CChar} (h : Holds n s acc mid (front ++ slash :: rest))
    (hf : (front.splitOn slash).foldlM (enter [slash]) acc = some acc') :
    ∃ u mid', Leads s u ∧ Holds n u acc' mid' rest := by
  induction front using Paths.segment_induction slash generalizing s acc mid with
  | last w hw =>
      rw [List.splitOn_eq_singleton hw, List.foldlM_cons] at hf
      obtain ⟨acc'', henter, hacc⟩ := Option.bind_eq_some_iff.mp hf
      obtain rfl := Option.some.inj hacc
      have hlast : Holds n s acc mid (w ++ ([slash] ++ rest)) := h
      rcases hlast.segment hw (.inl rfl) with ⟨_, henter', hu⟩ | ⟨hnone, _⟩
      · obtain rfl := Option.some.inj (henter.symm.trans henter')
        exact hu
      · exact absurd (henter.symm.trans hnone) nofun
  | more w front hw ih =>
      rw [List.splitOn_append_cons_self_of_not_mem hw, List.foldlM_cons] at hf
      obtain ⟨acc'', henter, hacc⟩ := Option.bind_eq_some_iff.mp hf
      rw [List.append_assoc] at h
      have hfirst : Holds n s acc mid (w ++ ([slash] ++ (front ++ slash :: rest))) := h
      rcases hfirst.segment hw (.inl rfl) with ⟨_, henter', u, mid', hleads, hu⟩ | ⟨hnone, _⟩
      · obtain rfl := Option.some.inj (henter.symm.trans henter')
        obtain ⟨v, mid'', hleads', hv⟩ := ih hu hacc
        exact ⟨v, mid'', hleads.trans hleads', hv⟩
      · exact absurd (henter.symm.trans hnone) nofun

end Scan

end Demoos
