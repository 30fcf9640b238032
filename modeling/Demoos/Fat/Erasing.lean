import Demoos.Fat.Insertion

/-!
# Removing names from a directory

`dir_search` leaves the handle at the last entry of a name and tells where the first one is.
`remove_entries` goes over these entries once more and marks each of them as free, so that gaps
come in the place of the name.
-/

namespace Demoos.Fat

open Program
open Function (update update_self update_of_ne)

variable {g : Geometry} {v u t : Volume} {w w' : DirState} {d d' : Dir} {cs cs' : List Nat}
  {i j k m n : Nat} {e : Entry} {items xs ys : List Item} {x : Item}

/-- An entry that `remove_entries` has been at. -/
def Entry.freed (e : Entry) : Entry := Entry.trim (update e 0 0xe5)

theorem freed_zero (e : Entry) : e.freed 0 = 0xe5 := by
  rw [Entry.freed, Entry.trim, if_pos (by decide), update_self]

/-- Two places of a directory are told apart by their sector and index. -/
theorem At.place_inj (hg : g.Laid) (hv : DirOk g cs v) (h : At g cs d j) (h' : At g cs d' k)
    (hsect : d.sect = d'.sect) (hidx : d.idx = d'.idx) : j = k := by
  have hdiv : j / 16 = k / 16 := by
    refine fileSect_inj hg hv.data hv.chain.nodup (lt_places_iff.mp h.lt_places)
      (lt_places_iff.mp h'.lt_places) ?_
    rw [← h.sect, ← h'.sect, hsect]
  have hmod := h.idx.symm.trans (hidx.trans h'.idx)
  omega

/-- One round of `remove_entries` at place `j`, where `k` is the last one. -/
theorem removeEntriesStep_spec (hg : g.Laid) (ha : g.Aligned) (hv : DirOk g cs v)
    (hat : At g cs w.dir j) (hlast : At g cs d k) (hle : j ≤ k) :
    Meets (removeEntriesStep g ⟨d.sect, d.idx⟩) (v, w)
      (fun r s => Rewritten g cs v (update (slot g cs v) j (slot g cs v j).freed) s.1 ∧
        (r = .inr () ∧ j = k ∧ s.2 = w ∨ r = .inl () ∧ j < k ∧ Moved g cs w s.2 (j + 1)))
      fun _ _ => False := by
  rw [removeEntriesStep, ← bind_assoc, meets_bind]
  refine (setEntry_at hg hv hat _).mono (fun _ s hs => ?_) fun _ _ he => he
  obtain ⟨u, x⟩ := s
  obtain ⟨hwrite, rfl, -⟩ := hs
  rw [meets_bind, meets_getDir]
  rcases Nat.eq_or_lt_of_le hle with rfl | hlt
  · have hhere : x.dir.sect = d.sect ∧ x.dir.idx = d.idx :=
      ⟨hat.sect.trans hlast.sect.symm, hat.idx.trans hlast.idx.symm⟩
    rw [if_pos hhere, meets_pure]
    exact ⟨hwrite, .inl ⟨rfl, rfl, rfl⟩⟩
  · have hnot : ¬ (x.dir.sect = d.sect ∧ x.dir.idx = d.idx) := fun h =>
      absurd (hat.place_inj hg hv hlast h.1 h.2) (Nat.ne_of_lt hlt)
    rw [if_neg hnot, meets_bind]
    refine (dirNext_spec hg ha hwrite.ok hat).mono (fun _ s hs => ?_) fun _ _ he => ?_
    · rw [meets_pure]
      exact ⟨hwrite.browsed hg hs.1, .inr ⟨rfl, hlt, hs.2⟩⟩
    · have := he.last
      have := hlast.lt_places
      omega

/-- The loop of `remove_entries`, from place `j` to the last one, `k` places further. -/
theorem eraseLoop_spec (hg : g.Laid) (ha : g.Aligned) (hv : DirOk g cs v) (hat : At g cs w.dir j)
    (hlast : At g cs d (j + k)) (hn : k < n) :
    Meets (loop (fun _ => removeEntriesStep g ⟨d.sect, d.idx⟩) n ()) (v, w)
      (fun _ s => Rewritten g cs v (fun i => if j ≤ i ∧ i ≤ j + k then (slot g cs v i).freed
          else slot g cs v i) s.1 ∧ Moved g cs w s.2 (j + k))
      fun _ _ => False := by
  induction n generalizing v w j k with
  | zero => omega
  | succ n ih =>
      rw [loop, meets_bind]
      refine (removeEntriesStep_spec hg ha hv hat hlast (Nat.le_add_right j k)).mono
        (fun r s hs => ?_) fun _ _ he => he
      obtain ⟨u, x⟩ := s
      obtain ⟨hwrite, ⟨rfl, hk, rfl⟩ | ⟨rfl, hk, hmoved⟩⟩ := hs
      · obtain rfl : k = 0 := by omega
        refine ⟨hwrite.congr fun i _ => ?_, ⟨x.dir, rfl⟩, rfl, rfl, hat⟩
        by_cases hi : i = j
        · rw [hi, update_self, if_pos (by omega)]
        · rw [update_of_ne hi, if_neg (by omega)]
      · obtain ⟨k, rfl⟩ : ∃ k', k = k' + 1 := ⟨k - 1, by omega⟩
        have hlast' : At g cs d (j + 1 + k) := by rwa [Nat.add_right_comm, Nat.add_assoc]
        refine (ih hwrite.ok hmoved.place hlast' (by omega)).mono (fun _ s hs => ?_)
          fun _ _ he => he
        obtain ⟨hrest, hmoved'⟩ := hs
        refine ⟨(hwrite.trans hrest).congr fun i hi => ?_, ?_⟩
        · rw [hwrite.slot_eq i hi]
          by_cases hi' : i = j
          · rw [hi', update_self, if_neg (by omega), if_pos (by omega)]
          · rw [update_of_ne hi']
            by_cases hin : j + 1 ≤ i ∧ i ≤ j + 1 + k
            · rw [if_pos hin, if_pos (by omega)]
            · rw [if_neg hin, if_neg (by omega)]
        · have hmoved := hmoved.trans hmoved'
          rwa [Nat.add_right_comm, Nat.add_assoc] at hmoved

/-- The gaps that an item leaves. -/
def Item.gaps (x : Item) : List Item := x.slots.map fun e => .gap e.freed

theorem slotsOf_gaps (x : Item) : slotsOf x.gaps = x.slots.map Entry.freed := by
  rw [slotsOf, Item.gaps, List.flatMap_map]
  exact List.map_eq_flatMap.symm

/-- `remove_entries` puts gaps in the place of the item that `dir_search` has found. -/
theorem removeEntries_spec (hg : g.Laid) (ha : g.Aligned) (hv : DirOk g cs v)
    (hlist : Listing g cs v (xs ++ x :: ys)) (hat : At g cs w.dir (lastPlace xs x))
    (hn : x.slots.length ≤ n) :
    Meets (removeEntries g n (locAt g cs (slotsOf xs).length)) (v, w)
      (fun _ s => Tended g cs v cs s.1 ∧ Listing g cs s.1 (xs ++ x.gaps ++ ys) ∧
        s.2.dir.fat = w.dir.fat ∧ s.2.dir.sclust = w.dir.sclust)
      fun _ _ => False := by
  have hpos := x.length_slots_pos
  have hlast := hat.lt_places
  have hstart := at_locAt hg hv.data (j := (slotsOf xs).length)
    (by rw [lastPlace] at hlast; omega) w.dir
  rw [removeEntries, meets_bind, meets_getDir, meets_bind, meets_rewindTo]
  refine (eraseLoop_spec hg ha hv hstart hat (by omega)).mono (fun _ s hs => ?_)
    fun _ _ he => he
  obtain ⟨hwrite, hmoved⟩ := hs
  refine ⟨hwrite.toTended, ?_, hmoved.of_goTo⟩
  rw [List.append_cons] at hlist
  have hslots : slotsOf [x] = x.slots := by rw [slotsOf_cons, slotsOf_nil, List.append_nil]
  refine hlist.replace (fun y hy => ?_) (by rw [slotsOf_gaps, List.length_map, hslots])
    (fun i e he => ?_) fun i hi hor => ?_
  · obtain ⟨e, _, rfl⟩ := List.mem_map.mp hy
    exact freed_zero e
  · rw [slotsOf_gaps, List.getElem?_map] at he
    obtain ⟨e', he', rfl⟩ := Option.map_eq_some_iff.mp he
    have hi := (List.getElem?_eq_some_iff.mp he').1
    rw [← List.append_cons] at hlist
    rw [hwrite.slot_eq _ (by rw [lastPlace] at hlast; omega), if_pos (by omega), hlist.slot_eq he']
  · rw [hslots] at hor
    rw [hwrite.slot_eq i hi, if_neg (by omega)]

end Demoos.Fat
