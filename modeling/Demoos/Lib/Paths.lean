import Mathlib.Data.List.Basic

/-!
# Paths

A path is a list of characters with separators.  Its components are the non-empty lists between
them.  To resolve a list of components is to drop each `.` and, with each `..`, what is left
in front of it.
-/

namespace Paths

variable {α : Type*} {sep dot : α} {w xs ys : List α}

/-- The last segment of a list with a separator. -/
theorem exists_last_segment (h : sep ∈ xs) : ∃ front w, xs = front ++ sep :: w ∧ sep ∉ w := by
  obtain ⟨w, front, hrev, hw⟩ := List.eq_append_cons_of_mem (List.mem_reverse.mpr h)
  refine ⟨front.reverse, w.reverse, ?_, fun hm => hw (List.mem_reverse.mp hm)⟩
  rw [← List.reverse_reverse xs, hrev]
  simp

variable [DecidableEq α]

/-- A list is one segment, or a segment in front of a separator and the rest. -/
theorem segment_induction {P : List α → Prop} (sep : α) (last : ∀ w, sep ∉ w → P w)
    (more : ∀ w rest, sep ∉ w → P rest → P (w ++ sep :: rest)) (xs : List α) : P xs := by
  induction hn : xs.length using Nat.strongRecOn generalizing xs with
  | ind n ih =>
      by_cases h : sep ∈ xs
      · obtain ⟨w, rest, rfl, hw⟩ := List.eq_append_cons_of_mem h
        rw [List.length_append, List.length_cons] at hn
        exact more w rest hw (ih rest.length (by omega) rest rfl)
      · exact last xs h

theorem not_mem_segment (h : w ∈ xs.splitOn sep) : sep ∉ w := by
  induction xs using segment_induction sep with
  | last v hv =>
      rw [List.splitOn_eq_singleton hv] at h
      rwa [List.mem_singleton.mp h]
  | more v rest hv ih =>
      rw [List.splitOn_append_cons_self_of_not_mem hv] at h
      rcases List.mem_cons.mp h with rfl | h
      · exact hv
      · exact ih h

/-- The list begins with its first segment. -/
theorem eq_of_splitOn_cons {ws : List (List α)} (h : xs.splitOn sep = w :: ws) :
    xs = w ∨ ∃ zs, xs = w ++ sep :: zs := by
  by_cases hmem : sep ∈ xs
  · obtain ⟨v, rest, rfl, hv⟩ := List.eq_append_cons_of_mem hmem
    rw [List.splitOn_append_cons_self_of_not_mem hv] at h
    exact .inr ⟨rest, by rw [(List.cons.inj h).1]⟩
  · rw [List.splitOn_eq_singleton hmem] at h
    exact .inl (List.cons.inj h).1

/-- It begins with the segments in front of a later one and that one. -/
theorem eq_of_splitOn_append {ws ws' : List (List α)} (h : xs.splitOn sep = ws ++ w :: ws')
    (hws : ws ≠ []) : ∃ front, front.splitOn sep = ws ∧
      (xs = front ++ sep :: w ∨ ∃ zs, xs = front ++ sep :: w ++ sep :: zs) := by
  induction xs using segment_induction sep generalizing ws with
  | last v hv =>
      rw [List.splitOn_eq_singleton hv] at h
      have hlen := congrArg List.length h
      have hpos := List.length_pos_iff.mpr hws
      simp at hlen
      omega
  | more v rest hv ih =>
      rw [List.splitOn_append_cons_self_of_not_mem hv] at h
      cases ws with
      | nil => exact absurd rfl hws
      | cons v' ws =>
          obtain ⟨rfl, hrest⟩ := List.cons.inj h
          cases ws with
          | nil =>
              refine ⟨v, List.splitOn_eq_singleton hv, ?_⟩
              rcases eq_of_splitOn_cons hrest with rfl | ⟨zs, rfl⟩
              · exact .inl rfl
              · exact .inr ⟨zs, by simp⟩
          | cons v' ws =>
              obtain ⟨front, hfront, hxs⟩ := ih hrest (List.cons_ne_nil v' ws)
              refine ⟨v ++ sep :: front, ?_, ?_⟩
              · rw [List.splitOn_append_cons_self_of_not_mem hv, hfront]
              · rcases hxs with hxs | ⟨zs, hxs⟩
                · exact .inl (by rw [hxs]; simp)
                · exact .inr ⟨zs, by rw [hxs]; simp⟩

/-! ## Components -/

def components (sep : α) (xs : List α) : List (List α) := (xs.splitOn sep).filter (· ≠ [])

theorem components_append_cons (xs ys : List α) :
    components sep (xs ++ sep :: ys) = components sep xs ++ components sep ys := by
  rw [components, List.splitOn_append_cons_self, List.filter_append]
  rfl

theorem components_segment (h : sep ∉ w) : components sep w = if w = [] then [] else [w] := by
  rw [components, List.splitOn_eq_singleton h]
  split
  next hw => subst hw; rfl
  next hw => exact List.filter_eq_self.mpr fun x hx => by simp_all

/-- Only separators have no component. -/
theorem components_eq_nil (h : components sep xs = []) : ∀ x ∈ xs, x = sep := by
  induction xs using segment_induction sep with
  | last w hw =>
      rw [components_segment hw] at h
      split at h
      next hnil => subst hnil; exact fun x hx => absurd hx List.not_mem_nil
      next => exact absurd h (List.cons_ne_nil _ _)
  | more w rest hw ih =>
      rw [components_append_cons, List.append_eq_nil_iff, components_segment hw] at h
      obtain ⟨hfirst, hrest⟩ := h
      split at hfirst
      next hnil =>
        subst hnil
        intro x hx
        rcases List.mem_cons.mp hx with rfl | hx
        · rfl
        · exact ih hrest x hx
      next => exact absurd hfirst (List.cons_ne_nil _ _)

/-! ## Resolution -/

/-- What the components of a path leave, the last one first. -/
def visit (dot : α) (st : List (List α)) (c : List α) : List (List α) :=
  if c = [dot] then st else if c = [dot, dot] then st.tail else c :: st

def resolve (dot : α) (cs : List (List α)) : List (List α) := (cs.foldl (visit dot) []).reverse

end Paths
