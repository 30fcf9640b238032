import Mathlib.Data.List.Nodup
import Mathlib.Data.List.Sort
import Mathlib.Data.Prod.Lex

/-!
# Stable sorted insertion

A list is sorted by a key, and elements of one key by a rank, the order in which they
came.  `orderedInsert` with the strict order of the keys puts an element behind all that
have its key, so the element that came last keeps the list sorted.
-/

namespace Insertion

variable {α β γ : Type*} [LinearOrder β] [LinearOrder γ]

/-- `x` has the smaller key, or the same key and the smaller rank. -/
def Ahead (key : α → β) (rank : α → γ) (x y : α) : Prop :=
  key x < key y ∨ key x = key y ∧ rank x < rank y

variable {key key' : α → β} {rank rank' : α → γ} {x : α} {xs : List α}

theorem Ahead.le {y : α} (h : Ahead key rank x y) : key x ≤ key y := by
  rcases h with hlt | ⟨he, _⟩
  · exact hlt.le
  · exact he.le

theorem sorted_of_ahead (h : xs.Pairwise (Ahead key rank)) :
    xs.Pairwise fun x y => key x ≤ key y := h.imp Ahead.le

/-- The order depends on the keys and ranks of the elements only. -/
theorem pairwise_congr (h : xs.Pairwise (Ahead key rank)) (hkey : ∀ x ∈ xs, key' x = key x)
    (hrank : ∀ x ∈ xs, rank' x = rank x) : xs.Pairwise (Ahead key' rank') := by
  refine h.imp_of_mem fun {x y} hx hy hxy => ?_
  rw [Ahead, hkey x hx, hkey y hy, hrank x hx, hrank y hy]
  exact hxy

/-- The element goes behind everything of a smaller or equal key. -/
theorem insert_split (key : α → β) (x : α) (xs : List α) :
    ∃ us vs, xs = us ++ vs ∧
      xs.orderedInsert (fun a b => key a < key b) x = us ++ x :: vs ∧
      (∀ u ∈ us, key u ≤ key x) ∧ ∀ v ∈ vs.head?, key x < key v := by
  induction xs with
  | nil => exact ⟨[], [], rfl, rfl, nofun, nofun⟩
  | cons y ys ih =>
      rw [List.orderedInsert_cons]
      split
      next hlt => exact ⟨[], y :: ys, rfl, rfl, nofun, fun v hv => Option.some.inj hv ▸ hlt⟩
      next hnot =>
        obtain ⟨us, vs, hys, hins, hus, hvs⟩ := ih
        refine ⟨y :: us, vs, congrArg (y :: ·) hys, congrArg (y :: ·) hins, fun u hu => ?_, hvs⟩
        rcases List.mem_cons.mp hu with rfl | hu
        · exact not_lt.mp hnot
        · exact hus u hu

/-- In a sorted list everything behind the element has a larger key. -/
theorem lt_of_head {vs : List α} (h : vs.Pairwise fun x y => key x ≤ key y)
    (hhead : ∀ v ∈ vs.head?, key x < key v) : ∀ v ∈ vs, key x < key v := by
  cases vs with
  | nil => exact nofun
  | cons w ws =>
      have hw : key x < key w := hhead w rfl
      intro v hv
      rcases List.mem_cons.mp hv with rfl | hv
      · exact hw
      · exact hw.trans_le ((List.pairwise_cons.mp h).1 v hv)

/-- The last one to come keeps the order. -/
theorem pairwise_insert (h : xs.Pairwise (Ahead key rank)) (hx : ∀ y ∈ xs, rank y < rank x) :
    (xs.orderedInsert (fun a b => key a < key b) x).Pairwise (Ahead key rank) := by
  obtain ⟨us, vs, rfl, hins, hus, hhead⟩ := insert_split key x xs
  obtain ⟨hu, hv, huv⟩ := List.pairwise_append.mp h
  have hvs := lt_of_head (sorted_of_ahead hv) hhead
  rw [hins]
  refine List.pairwise_append.mpr ⟨hu, List.pairwise_cons.mpr ⟨fun v hm => ?_, hv⟩, ?_⟩
  · exact .inl (hvs v hm)
  · intro u hum w hw
    rcases List.mem_cons.mp hw with rfl | hw
    · rcases (hus u hum).lt_or_eq with hlt | he
      · exact .inl hlt
      · exact .inr ⟨he, hx u (List.mem_append_left vs hum)⟩
    · exact huv u hum w hw

/-- The places in a list are a rank of its elements. -/
theorem pairwise_idxOf [DecidableEq α] (h : xs.Nodup) :
    xs.Pairwise fun x y => xs.idxOf x < xs.idxOf y := by
  refine List.pairwise_iff_getElem.mpr fun i j hi hj hij => ?_
  rw [h.idxOf_getElem i hi, h.idxOf_getElem j hj]
  exact hij

end Insertion
