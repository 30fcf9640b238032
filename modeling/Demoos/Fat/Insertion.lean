import Demoos.Fat.Rewriting

/-!
# Adding names to a directory

`dir_add` looks for the first run of free places that is long enough for the entries of a name,
and takes new clusters for the directory where there is none.  The names that the directory has
stay what they are, and the new one comes in the place of gaps or behind all others.
-/

namespace Demoos.Fat

open Program
open Function (update update_self update_of_ne)

variable {g : Geometry} {v u t : Volume} {w w' : DirState} {cs cs' : List Nat}
  {i j k m n need out : Nat} {name : List Byte} {e : Entry} {items xs ys : List Item} {x : Item}
  {r : FreeRun}

/-! ## Runs of gaps -/

/-- The entries of an item that is no gap are in use. -/
theorem Item.Ok.used (hx : x.Ok) (hgap : ∀ e, x ≠ .gap e) (he : e ∈ x.slots) :
    sfnIsFree e = false := by
  cases x with
  | gap e' => exact absurd rfl (hgap e')
  | short e' =>
      obtain rfl := List.mem_singleton.mp he
      exact hx.used
  | long name frags e' =>
      rcases List.mem_append.mp he with he | he
      · obtain ⟨i, hi⟩ := List.getElem?_of_mem he
        exact (hx.1.frag i e hi).1
      · obtain rfl := List.mem_singleton.mp he
        exact hx.2.used

theorem Item.Ok.not_last (hx : x.Ok) (he : e ∈ x.slots) : sfnIsLast e = false := by
  by_cases hgap : ∃ e', x = .gap e'
  · obtain ⟨e', rfl⟩ := hgap
    obtain rfl := List.mem_singleton.mp he
    exact (Item.Ok.gap_free hx).1
  · exact sfnIsLast_of_used (hx.used (not_exists.mp hgap) he)

theorem mem_slots_of_getElem? (h : (slotsOf items)[i]? = some e) : ∃ x ∈ items, e ∈ x.slots :=
  List.mem_flatMap.mp (List.mem_of_getElem? h)

/-- A free place is at the beginning of an item. -/
theorem split_free (hok : ∀ x ∈ items, x.Ok) (hi : i ≤ (slotsOf items).length)
    (hfree : ∀ e, (slotsOf items)[i]? = some e → sfnIsFree e = true) :
    ∃ pre post, items = pre ++ post ∧ (slotsOf pre).length = i := by
  induction items generalizing i with
  | nil => exact ⟨[], [], rfl, (Nat.le_zero.mp hi).symm⟩
  | cons x xs ih =>
      rcases Nat.eq_zero_or_pos i with rfl | hpos
      · exact ⟨[], x :: xs, rfl, rfl⟩
      rw [slotsOf_cons, List.length_append] at hi
      rcases Nat.lt_or_ge i x.slots.length with hlt | hge
      · have hget : (slotsOf (x :: xs))[i]? = some x.slots[i] := by
          rw [slotsOf_cons, List.getElem?_append_left hlt, List.getElem?_eq_getElem hlt]
        have hused := (hok x List.mem_cons_self).used (fun e' he' => ?_) (List.getElem_mem hlt)
        · rw [hfree _ hget] at hused
          cases hused
        · subst he'
          exact absurd hlt (by rw [Item.slots, List.length_singleton]; omega)
      · obtain ⟨k, rfl⟩ := Nat.exists_eq_add_of_le hge
        obtain ⟨pre, post, rfl, hlen⟩ := ih (i := k)
          (fun y hy => hok y (List.mem_cons_of_mem x hy)) (by omega) fun e he => hfree e (by
            rw [slotsOf_cons, List.getElem?_append_right (by omega), Nat.add_sub_cancel_left, he])
        exact ⟨x :: pre, post, rfl, by rw [slotsOf_cons, List.length_append, hlen]⟩

/-- Free places at the beginning are gaps. -/
theorem split_gaps (hok : ∀ x ∈ items, x.Ok) (hn : n ≤ (slotsOf items).length)
    (hfree : ∀ i < n, ∀ e, (slotsOf items)[i]? = some e → sfnIsFree e = true) :
    ∃ gaps post, items = gaps ++ post ∧ gaps.length = n ∧ ∀ x ∈ gaps, ∃ e, x = .gap e := by
  induction n generalizing items with
  | zero => exact ⟨[], items, rfl, rfl, by simp⟩
  | succ n ih =>
      cases items with
      | nil => exact absurd hn (by simp)
      | cons x xs =>
          obtain ⟨e, he⟩ := x.exists_head
          have hget : (slotsOf (x :: xs))[0]? = some e := by
            rw [slotsOf_cons, List.getElem?_append_left x.length_slots_pos,
              ← List.head?_eq_getElem?, he]
          have hgap : ∃ e, x = .gap e := by
            by_contra hgap
            have hused := (hok x List.mem_cons_self).head_used (not_exists.mp hgap) he
            rw [hfree 0 (by omega) e hget] at hused
            cases hused
          obtain ⟨e', rfl⟩ := hgap
          rw [slotsOf_cons, List.length_append, Item.slots, List.length_singleton] at hn
          obtain ⟨gaps, post, rfl, hlen, hgaps⟩ := ih
            (fun y hy => hok y (List.mem_cons_of_mem _ hy)) (by omega) fun i hi e he =>
              hfree (i + 1) (by omega) e (by
                rw [slotsOf_cons, Item.slots, List.singleton_append, List.getElem?_cons_succ, he])
          refine ⟨.gap e' :: gaps, post, rfl, by rw [List.length_cons, hlen], fun y hy => ?_⟩
          rcases List.mem_cons.mp hy with rfl | hy
          · exact ⟨e', rfl⟩
          · exact hgaps y hy

theorem length_slotsOf_gaps (h : ∀ x ∈ xs, ∃ e, x = .gap e) : (slotsOf xs).length = xs.length := by
  induction xs with
  | nil => rfl
  | cons x xs ih =>
      obtain ⟨e, rfl⟩ := h x List.mem_cons_self
      have hlen := ih fun y hy => h y (List.mem_cons_of_mem _ hy)
      rw [slotsOf_cons, List.length_append, hlen, Nat.add_comm]
      rfl

/-! ## The search for free places -/

/-- What the search knows in front of place `j`. -/
structure Running (g : Geometry) (cs : List Nat) (items : List Item) (j : Nat) (r : FreeRun) :
    Prop where
  eod : r.eod = true ↔ (slotsOf items).length < j
  le : r.cnt ≤ j
  far : j ≤ (slotsOf items).length + r.cnt
  loc : 0 < r.cnt → r.loc = locAt g cs (j - r.cnt)
  free : ∀ i, j ≤ i + r.cnt → i < j → ∀ e, (slotsOf items)[i]? = some e → sfnIsFree e = true

theorem running_zero : Running g cs items 0 ⟨0, false, ⟨0, 0⟩⟩ :=
  ⟨by simp, Nat.le_refl 0, Nat.zero_le _, fun h => absurd h (Nat.lt_irrefl 0),
    fun _ _ h => absurd h (Nat.not_lt_zero _)⟩

theorem locAt_of_pre (hpre : cs <+: cs') (hi : i < places g cs) : locAt g cs' i = locAt g cs i := by
  rw [locAt, locAt, fileSect_of_pre hpre (lt_places_iff.mp hi)]

theorem Running.mono (h : Running g cs items j r) (hpre : cs <+: cs') (hj : j ≤ places g cs) :
    Running g cs' items j r :=
  ⟨h.eod, h.le, h.far, fun hpos => (h.loc hpos).trans
    (locAt_of_pre hpre (by have := h.le; omega)).symm, h.free⟩

/-- One place more. -/
theorem Running.visit (h : Running g cs items j r) (hlist : Listing g cs v items)
    (hj : j < places g cs) :
    Running g cs items (j + 1) (r.visit (slot g cs v j) (locAt g cs j)) := by
  have hitem : ∀ e, (slotsOf items)[j]? = some e → slot g cs v j = e ∧ sfnIsLast e = false :=
    fun e he => by
      obtain ⟨x, hx, he'⟩ := mem_slots_of_getElem? he
      exact ⟨hlist.slots j e he, (hlist.ok x hx).not_last he'⟩
  have hend : (slotsOf items).length = j → sfnIsLast (slot g cs v j) = true := fun hlen =>
    hlen ▸ hlist.ends (by omega)
  have heod : (r.eod || sfnIsLast (slot g cs v j)) = true ↔ (slotsOf items).length < j + 1 := by
    rw [Bool.or_eq_true, h.eod]
    refine ⟨fun hor => ?_, fun hlt => ?_⟩
    · by_contra hlt
      have hget := List.getElem?_eq_getElem (l := slotsOf items) (i := j) (by omega)
      obtain ⟨hslot, hlast⟩ := hitem _ hget
      rw [hslot, hlast] at hor
      exact hor.elim (fun h => by omega) fun h => by cases h
    · rcases Nat.lt_or_ge (slotsOf items).length j with hlt' | hge
      · exact .inl hlt'
      · exact .inr (hend (by omega))
  have hfree : ∀ e, (slotsOf items)[j]? = some e →
      (r.eod || sfnIsFree (slot g cs v j)) = true → sfnIsFree e = true := fun e he hor => by
    have hlt := (List.getElem?_eq_some_iff.mp he).1
    rw [(hitem e he).1, Bool.or_eq_true, h.eod] at hor
    exact hor.resolve_left (by omega)
  rw [FreeRun.visit]
  cases hf : (r.eod || sfnIsFree (slot g cs v j)) with
  | false =>
      have hlt : j < (slotsOf items).length := by
        by_contra hlt
        rw [Bool.or_eq_false_iff] at hf
        rcases Nat.lt_or_ge (slotsOf items).length j with hlt' | hge
        · rw [h.eod.mpr hlt'] at hf
          cases hf.1
        · rw [sfnIsFree_of_last (hend (by omega))] at hf
          cases hf.2
      rw [if_neg Bool.false_ne_true]
      refine ⟨heod, Nat.zero_le _, hlt, fun hpos => absurd hpos (Nat.lt_irrefl 0),
        fun i hi hi' => ?_⟩
      dsimp only at hi
      omega
  | true =>
      have hle := h.le
      have hfar := h.far
      simp only [if_pos, true_and]
      refine ⟨heod, by dsimp only; omega, by dsimp only; omega, fun _ => ?_,
        fun i hi hi' e he => ?_⟩
      · dsimp only
        by_cases hzero : r.cnt = 0
        · rw [if_pos hzero, hzero]
          rfl
        · rw [if_neg hzero, h.loc (by omega), show j + 1 - (r.cnt + 1) = j - r.cnt by omega]
      · dsimp only at hi
        rcases Nat.lt_or_ge i j with hlt | hge
        · exact h.free i (by omega) hlt e he
        · obtain rfl : i = j := by omega
          exact hfree e he hf

/-- The items are still there when the directory has grown. -/
theorem Lengthened.listing (h : Lengthened g cs v cs' t) (hlist : Listing g cs v items) :
    Listing g cs' t items where
  ok := hlist.ok
  le := hlist.le.trans (places_mono h.pre)
  slots j e he := by
    have hle := hlist.le
    have hlt := (List.getElem?_eq_some_iff.mp he).1
    rw [h.slot_eq j (by omega), hlist.slots j e he]
  ends hlt := by
    rcases Nat.lt_or_ge (slotsOf items).length (places g cs) with hin | hge
    · rw [h.slot_eq _ hin]
      exact hlist.ends hin
    · rw [h.zero _ hge hlt]
      rfl

/-- The search ends with as many free places as it needs, and with a place behind them.  A search
that finds the volume full has come to the end of the directory before that. -/
theorem findRun_spec (hg : g.Laid) (ha : g.Aligned) (hv : DirOk g cs v)
    (hlist : Listing g cs v items) (hat : At g cs w.dir j) (hrun : Running g cs items j r)
    (hcnt : r.cnt ≤ need) (hm : 2 * g.clustCnt < m)
    (hn : (slotsOf items).length + need < n + j) :
    Meets (loop (findRunStep g m out need) n r) (v, w)
      (fun r' s => ∃ cs' k, Lengthened g cs v cs' s.1 ∧ Moved g cs' w s.2 k ∧
        Running g cs' items k r' ∧ r'.cnt = need ∧ j ≤ k ∧
        places g cs' ≤ max (places g cs) (k + g.spc * 16))
      fun e s => e = .error .full ∧ s.2.dir.sclust = w.dir.sclust ∧
        ∃ cs', Lengthened g cs v cs' s.1 ∧ (s.1.free g).card ≤ 1 ∧
          places g cs' ≤ (slotsOf items).length + need := by
  induction n generalizing v w cs j r with
  | zero =>
      have := hrun.far
      omega
  | succ n ih =>
      rw [loop, meets_bind, findRunStep]
      split
      next hlt =>
        rw [meets_bind]
        refine (updateDir_loaded hg hv hat).mono (fun _ s hs => ?_) fun _ _ he => he.elim
        obtain ⟨u, w⟩ := s
        obtain ⟨hbrowsed, rfl, hload⟩ := hs
        have hvu := hbrowsed.lengthened hg hv
        have hlist' := hlist.congr hbrowsed.view_eq
        have hentry := hload.entry hat
        have hloc : (⟨w.dir.sect, w.dir.idx⟩ : Loc) = locAt g cs j := by
          rw [locAt, hat.sect, hat.idx]
        rw [meets_bind, meets_dirPtr, meets_bind, meets_getDir, meets_bind]
        dsimp only
        rw [hentry, hloc]
        have hlt_places := hat.lt_places
        have hvisit := hrun.visit hlist' hlt_places
        have hcnt' : (r.visit (slot g cs u j) (locAt g cs j)).cnt ≤ need := by
          rw [FreeRun.visit]
          dsimp only
          split <;> omega
        have hfar : j + 1 ≤ (slotsOf items).length + need :=
          hvisit.far.trans (Nat.add_le_add_left hcnt' _)
        refine (dirNextStretch_spec hg ha hvu.ok hat hm out).mono (fun _ s hs => ?_)
          fun e s he => ?_
        swap
        · obtain ⟨he, hstretch, hsclust, hfree, hend⟩ := he
          exact ⟨he, hsclust, cs, hvu.trans hstretch, hfree, by omega⟩
        obtain ⟨t, x⟩ := s
        obtain ⟨cs₁, hstretch, hmoved, hwide⟩ := hs
        have hvt := hvu.trans hstretch
        have hvisit := hvisit.mono hvt.pre (by omega)
        rw [meets_pure]
        refine (ih hvt.ok (hvt.listing hlist) hmoved.place hvisit hcnt' (by omega)).mono
          (fun r' s hs => ?_) fun e s he => ?_
        · obtain ⟨cs₂, k, hgrown, hmoved', hrun', hcnt', hle, hwide'⟩ := hs
          exact ⟨cs₂, k, hvt.trans hgrown, hmoved.trans hmoved', hrun', hcnt', by omega, by omega⟩
        · obtain ⟨he, hsclust, cs₂, hgrown, hends⟩ := he
          exact ⟨he, hsclust.trans hmoved.sclust, cs₂, hvt.trans hgrown, hends⟩
      next hge =>
        rw [meets_pure]
        exact ⟨cs, j, (Browsed.refl g cs v).lengthened hg hv, ⟨⟨w.dir, rfl⟩, rfl, rfl, hat⟩, hrun,
          by omega, Nat.le_refl j, Nat.le_max_left _ _⟩

/-- Where the search has ended there are gaps, or the end of the directory, which it has seen
then. -/
theorem Running.split (h : Running g cs items j r) (hok : ∀ x ∈ items, x.Ok) (hpos : 0 < r.cnt) :
    ∃ pre gaps post, items = pre ++ gaps ++ post ∧ (∀ x ∈ gaps, ∃ e, x = .gap e) ∧
      (slotsOf pre).length + r.cnt = j ∧
      (gaps.length = r.cnt ∧ r.eod = false ∨ gaps.length < r.cnt ∧ post = [] ∧ r.eod = true) := by
  have hle := h.le
  have hfar := h.far
  obtain ⟨pre, rest, rfl, hlen⟩ := split_free (i := j - r.cnt) hok (by omega) fun e he =>
    h.free (j - r.cnt) (by omega) (by omega) e he
  have hrest : ∀ (i : Nat) (e : Entry), (slotsOf rest)[i]? = some e →
      (slotsOf (pre ++ rest))[j - r.cnt + i]? = some e := fun i e he => by
    rw [slotsOf_append, List.getElem?_append_right (by omega), hlen, Nat.add_sub_cancel_left, he]
  have hlength : (slotsOf (pre ++ rest)).length = j - r.cnt + (slotsOf rest).length := by
    rw [slotsOf_append, List.length_append, hlen]
  obtain ⟨gaps, post, rfl, hgaps, hall⟩ := split_gaps (n := min r.cnt (slotsOf rest).length)
    (fun x hx => hok x (List.mem_append_right pre hx)) (Nat.min_le_right _ _) fun i hi e he =>
      h.free (j - r.cnt + i) (by omega) (by omega) e (hrest i e he)
  have hsum : (slotsOf (gaps ++ post)).length = gaps.length + (slotsOf post).length := by
    rw [slotsOf_append, List.length_append, length_slotsOf_gaps hall]
  refine ⟨pre, gaps, post, (List.append_assoc pre gaps post).symm, hall, by omega, ?_⟩
  rcases Nat.lt_or_ge gaps.length r.cnt with hlt | hge
  · refine .inr ⟨hlt, ?_, h.eod.mpr (by omega)⟩
    cases post with
    | nil => rfl
    | cons x xs =>
        have := x.length_slots_pos
        rw [slotsOf_cons, List.length_append] at hsum
        omega
  · refine .inl ⟨by omega, ?_⟩
    rw [← Bool.not_eq_true, h.eod]
    omega

/-! ## The entries of a name -/

theorem getElem?_fragEntries {crc mask : Byte} (h : (fragEntries name crc n mask)[i]? = some e) :
    i < n ∧ e = putLfn ((name.drop (13 * (n - 1 - i))).take 13) (if i = 0 then mask else 0) crc
      (n - i) fun _ => 0 := by
  induction n generalizing i mask with
  | zero => cases h
  | succ n ih =>
      cases i with
      | zero => exact ⟨Nat.succ_pos n, (Option.some.inj h).symm⟩
      | succ i =>
          obtain ⟨hi, he⟩ := ih h
          refine ⟨Nat.succ_lt_succ hi, he.trans ?_⟩
          rw [ite_self, if_neg (Nat.succ_ne_zero i), show n + 1 - 1 - (i + 1) = n - 1 - i by omega,
            show n + 1 - (i + 1) = n - i by omega]

theorem seq_head : ∀ n < 21, 0 < n → (0x40 ||| BitVec.ofNat 8 n : Byte) &&& 0x40 ≠ 0 ∧
    ((0x40 ||| BitVec.ofNat 8 n : Byte) &&& 0x1f).toNat = n := by decide

theorem seq_used : ∀ n < 21, 0 < n →
    ((0x40 ||| BitVec.ofNat 8 n : Byte) ≠ 0x00 ∧ (0x40 ||| BitVec.ofNat 8 n : Byte) ≠ 0xe5) ∧
      (0 ||| BitVec.ofNat 8 n : Byte) ≠ 0x00 ∧ (0 ||| BitVec.ofNat 8 n : Byte) ≠ 0xe5 := by decide

theorem sfnIsFree_eq_false (h : e 0 ≠ 0x00 ∧ e 0 ≠ 0xe5) : sfnIsFree e = false := by
  rw [sfnIsFree, Bool.or_eq_false_iff]
  exact ⟨beq_false_of_ne h.1, beq_false_of_ne h.2⟩

/-- `parse_lfn_name` can read what `dir_add` writes. -/
theorem spells_nameFrags (hpos : 0 < name.length) (hlen : name.length ≤ 255)
    (hchars : ∀ c ∈ name, c ≠ 0x00 ∧ c ≠ 0xff) :
    Spells name (nameFrags name) (getCrc (putSfnName name)) where
  le := by
    rw [length_nameFrags, lfnCount]
    omega
  head e he := by
    rw [List.head?_eq_getElem?] at he
    obtain ⟨hn, rfl⟩ := getElem?_fragEntries he
    rw [if_pos rfl, putLfn_seq, length_nameFrags, Nat.sub_zero]
    exact seq_head _ (by rw [lfnCount]; omega) hn
  full := by
    rw [length_nameFrags, lfnCount]
    omega
  fits := by
    rw [length_nameFrags, lfnCount]
    omega
  short := hlen
  pos := by
    rw [length_nameFrags, lfnCount]
    omega
  frag i e he := by
    obtain ⟨hi, rfl⟩ := getElem?_fragEntries he
    have hn : lfnCount name < 21 := by
      rw [lfnCount]
      omega
    refine ⟨?_, putLfn_attr, putLfn_crc, ?_⟩
    · obtain ⟨hhead, hrest⟩ := seq_used (lfnCount name - i) (by omega) (by omega)
      refine sfnIsFree_eq_false ?_
      rw [putLfn_seq]
      split
      · exact hhead
      · exact hrest
    · rw [length_nameFrags]
      refine parseFrag_putLfn (fun c hc => hchars c ?_) (List.length_take_le _ _)
      exact List.mem_of_mem_drop (List.mem_of_mem_take hc)

theorem plain_nameEntry (ts : Timestamp) (name : List Byte) {attr : Byte} (hattr : attr ≠ 0x0f)
    (clust : Nat) : Plain (nameEntry ts name attr clust) where
  used := by
    have hname : sfnName (nameEntry ts name attr clust) = putSfnName name := sfnName_putSfn
    have hmem : nameEntry ts name attr clust 0 ∈ putSfnName name := by
      rw [← hname]
      exact List.mem_map.mpr ⟨0, by decide, rfl⟩
    exact sfnIsFree_eq_false (putSfnName_ne hmem)
  plain := by
    rw [sfnIsLfn, nameEntry, putSfn_attr]
    simpa using hattr

/-- What `dir_add` makes of a name. -/
def Item.added (ts : Timestamp) (name : List Byte) (attr : Byte) (clust : Nat) : Item :=
  .long name (nameFrags name) (nameEntry ts name attr clust)

theorem length_slots_added (ts : Timestamp) (name : List Byte) (attr : Byte) (clust : Nat) :
    (Item.added ts name attr clust).slots.length = lfnCount name + 1 := by
  rw [Item.added, Item.slots, List.length_append, length_nameFrags, List.length_singleton]

theorem ok_added (ts : Timestamp) (hpos : 0 < name.length) (hlen : name.length ≤ 255)
    (hchars : ∀ c ∈ name, c ≠ 0x00 ∧ c ≠ 0xff) {attr : Byte} (hattr : attr ≠ 0x0f) (clust : Nat) :
    (Item.added ts name attr clust).Ok := by
  refine ⟨?_, plain_nameEntry ts name hattr clust⟩
  rw [nameEntry, sfnName_putSfn]
  exact spells_nameFrags hpos hlen hchars

/-! ## `dir_add` -/

/-- Other items in the same number of places. -/
theorem Listing.replace {mid mid' : List Item} (h : Listing g cs v (xs ++ mid ++ ys))
    (hok : ∀ x ∈ mid', x.Ok) (hlen : (slotsOf mid').length = (slotsOf mid).length)
    (hin : ∀ i e, (slotsOf mid')[i]? = some e → slot g cs t ((slotsOf xs).length + i) = e)
    (hout : ∀ i < places g cs, i < (slotsOf xs).length ∨
      (slotsOf xs).length + (slotsOf mid).length ≤ i → slot g cs t i = slot g cs v i) :
    Listing g cs t (xs ++ mid' ++ ys) := by
  have hle := h.le
  simp only [slotsOf_append, List.length_append] at hle
  refine ⟨fun y hy => ?_, ?_, fun j e he => ?_, fun hlt => ?_⟩
  · simp only [List.mem_append] at hy
    rcases hy with (hy | hy) | hy
    · exact h.ok y (by simp [hy])
    · exact hok y hy
    · exact h.ok y (by simp [hy])
  · simp only [slotsOf_append, List.length_append, hlen]
    exact hle
  · have hj := (List.getElem?_eq_some_iff.mp he).1
    have hslots := h.slots j e
    simp only [slotsOf_append, List.append_assoc, List.length_append, hlen] at he hj hslots
    rcases Nat.lt_or_ge j (slotsOf xs).length with hlt | hge
    · rw [List.getElem?_append_left hlt] at he hslots
      rw [hout j (by omega) (.inl hlt), hslots he]
    obtain ⟨i, rfl⟩ := Nat.exists_eq_add_of_le hge
    rw [List.getElem?_append_right hge, Nat.add_sub_cancel_left] at he hslots
    rcases Nat.lt_or_ge i (slotsOf mid).length with hlt | hge
    · rw [List.getElem?_append_left (by omega)] at he
      exact hin i e he
    · rw [List.getElem?_append_right (by omega), hlen] at he
      rw [List.getElem?_append_right hge] at hslots
      rw [hout _ (by omega) (.inr (by omega)), hslots he]
  · have hends := h.ends
    simp only [slotsOf_append, List.length_append, hlen] at hends hlt ⊢
    rw [hout _ hlt (.inr (by omega))]
    exact hends hlt

/-- An item behind all others, over the gaps at the end. -/
theorem Listing.push (h : Listing g cs v (xs ++ ys)) (hx : x.Ok)
    (hlt : (slotsOf xs).length + x.slots.length < places g cs)
    (hold : ∀ i < (slotsOf xs).length, slot g cs t i = slot g cs v i)
    (hnew : ∀ i e, x.slots[i]? = some e → slot g cs t ((slotsOf xs).length + i) = e)
    (hlast : sfnIsLast (slot g cs t ((slotsOf xs).length + x.slots.length)) = true) :
    Listing g cs t (xs ++ [x]) := by
  have hslots : slotsOf (xs ++ [x]) = slotsOf xs ++ x.slots := by
    rw [slotsOf_append, slotsOf_cons, slotsOf_nil, List.append_nil]
  refine ⟨fun y hy => ?_, ?_, fun j e he => ?_, fun _ => ?_⟩
  · rcases List.mem_append.mp hy with hy | hy
    · exact h.ok y (List.mem_append_left _ hy)
    · rwa [List.mem_singleton.mp hy]
  · rw [hslots, List.length_append]
    exact hlt.le
  · rw [hslots] at he
    rcases Nat.lt_or_ge j (slotsOf xs).length with hj | hj
    · rw [List.getElem?_append_left hj] at he
      rw [hold j hj]
      refine h.slots j e ?_
      rw [slotsOf_append, List.getElem?_append_left hj, he]
    · obtain ⟨i, rfl⟩ := Nat.exists_eq_add_of_le hj
      rw [List.getElem?_append_right hj, Nat.add_sub_cancel_left] at he
      exact hnew i e he
  · rw [hslots, List.length_append]
    exact hlast

/-- The mark for the end of the directory, if the search has come to it. -/
theorem markEnd_spec (hg : g.Laid) (hv : DirOk g cs v) (hat : At g cs w.dir k) (eod : Bool) :
    Meets (if eod then do updateDir; editDir fun e => update e 0 0x00 else pure ()) (v, w)
      (fun _ s => s.2 = w ∧ Tended g cs v cs s.1 ∧
        (∀ i < places g cs, (eod = true → i ≠ k) → slot g cs s.1 i = slot g cs v i) ∧
        (eod = true → sfnIsLast (slot g cs s.1 k) = true))
      fun _ _ => False := by
  cases eod with
  | false => exact ⟨rfl, .refl hv, fun _ _ _ => rfl, fun h => by cases h⟩
  | true =>
      refine (setEntry_at hg hv hat _).mono (fun _ s hs => ?_) fun _ _ he => he
      obtain ⟨hwrite, hstate, -⟩ := hs
      refine ⟨hstate, hwrite.toTended, fun i hi hne => ?_, fun _ => ?_⟩
      · rw [hwrite.slot_eq i hi, update_of_ne (hne rfl)]
      · rw [hwrite.slot_eq k hat.lt_places, update_self]
        rfl

/-- The directory has a new item behind `xs`, and the handle is at its last entry. -/
structure Inserted (g : Geometry) (cs : List Nat) (v : Volume) (w : DirState) (xs : List Item)
    (x : Item) (post : List Item) (cs' : List Nat) (t : Volume) (w' : DirState) : Prop where
  tended : Tended g cs v cs' t
  stood : Stood g cs' w (lastPlace xs x) t w'
  listing : Listing g cs' t (xs ++ x :: post)

/-- What `dir_add` does with the places that it has found. -/
theorem putRun_spec (hg : g.Laid) (ha : g.Aligned) (hv : DirOk g cs v)
    (hlist : Listing g cs v items) (hat : At g cs w.dir k) (hrun : Running g cs items k r)
    (hcnt : r.cnt = lfnCount name + 1) (hpos : 0 < name.length) (hlen : name.length ≤ 255)
    (hchars : ∀ c ∈ name, c ≠ 0x00 ∧ c ≠ 0xff) (ts : Timestamp) {attr : Byte} (hattr : attr ≠ 0x0f)
    (clust : Nat) :
    Meets (do
        (if r.eod then do updateDir; editDir fun e => update e 0 0x00 else pure ())
        putEntries g ts name attr clust r.loc) (v, w)
      (fun _ s => ∃ pre gaps post, items = pre ++ gaps ++ post ∧ (∀ x ∈ gaps, ∃ e, x = .gap e) ∧
        gaps.length ≤ lfnCount name + 1 ∧
        Inserted g cs v w pre (.added ts name attr clust) post cs s.1 s.2)
      fun _ _ => False := by
  obtain ⟨pre, gaps, post, rfl, hgaps, hplace, hend⟩ := hrun.split hlist.ok (by omega)
  have hslots := length_slots_added ts name attr clust
  have hklt := hat.lt_places
  have hloc : r.loc = locAt g cs (slotsOf pre).length := by
    rw [hrun.loc (by omega)]
    congr 1
    omega
  rw [hloc, meets_bind]
  refine (markEnd_spec hg hv hat r.eod).mono (fun _ s hs => ?_) fun _ _ he => he
  obtain ⟨u, x⟩ := s
  obtain ⟨rfl, htended, hsame, hlast⟩ := hs
  refine (putEntries_spec hg ha htended.ok ts name attr clust (by omega)).mono (fun _ s hs => ?_)
    fun _ _ he => he
  obtain ⟨t, x'⟩ := s
  obtain ⟨hwrite, hstood⟩ := hs
  have hslot : ∀ i < places g cs, slot g cs t i = Tape.splice (slot g cs u) (slotsOf pre).length
      (Item.added ts name attr clust).slots i := hwrite.slot_eq
  refine ⟨pre, gaps, post, rfl, hgaps, by omega, ⟨htended.trans hwrite.toTended, ?_, ?_⟩⟩
  · rw [lastPlace, hslots, Nat.add_sub_cancel]
    exact hstood
  have hok := ok_added ts hpos hlen hchars hattr clust
  have hold : ∀ i < (slotsOf pre).length, slot g cs t i = slot g cs v i := fun i hi => by
    rw [hslot i (by omega), Tape.splice_of_lt hi]
    exact hsame i (by omega) fun _ => by omega
  have hnew : ∀ i e, (Item.added ts name attr clust).slots[i]? = some e →
      slot g cs t ((slotsOf pre).length + i) = e := fun i e he => by
    obtain ⟨hi, rfl⟩ := List.getElem?_eq_some_iff.mp he
    rw [hslot _ (by omega), Tape.splice_add hi]
  rcases hend with ⟨hlength, heod⟩ | ⟨_, rfl, heod⟩
  · have hsum : slotsOf [Item.added ts name attr clust] =
        (Item.added ts name attr clust).slots := by
      rw [slotsOf_cons, slotsOf_nil, List.append_nil]
    have hgapslen := length_slotsOf_gaps hgaps
    rw [List.append_cons]
    refine hlist.replace (by simpa using hok) (by rw [hsum]; omega) (by rwa [hsum])
      fun i hi hor => ?_
    rcases hor with hlt | hge
    · exact hold i hlt
    · rw [hslot i hi, Tape.splice_of_le (by omega)]
      exact hsame i hi fun h => by rw [heod] at h; cases h
  · rw [List.append_nil] at hlist
    refine hlist.push hok (by omega) hold hnew ?_
    rw [hslot _ (by omega), Tape.splice_of_le (Nat.le_refl _), hslots, ← hcnt, hplace]
    exact hlast heod

theorem meets_dirEnter {c : Nat} (hc : c ≠ 0) {Q : PUnit → Volume × DirState → Prop}
    {E : Stop FatError → Volume × DirState → Prop} : Meets (dirEnter g c) (v, w) Q E ↔
      Q ⟨⟩ (v, { w with dir :=
        { w.dir with sclust := c, clust := c, sect := clustToSect g c, idx := 0 } }) := by
  rw [dirEnter, if_neg hc, meets_bind, meets_setDir, dirAtClust, meets_setDir]

/-- The handle that has entered its directory. -/
theorem Stood.entered {c sect : Nat} (hc : w.dir.sclust = c)
    (h : Stood g cs { w with dir :=
      { w.dir with sclust := c, clust := c, sect := sect, idx := 0 } } j t w') :
    Stood g cs w j t w' := ⟨h.fat, h.sclust.trans hc.symm, h.place, h.loaded⟩

/-- `dir_add` puts the name in the place of gaps or behind all others, or finds the volume full
and no room for the name in the directory, and leaves the names as they were. -/
theorem dirAdd_spec (hg : g.Laid) (ha : g.Aligned) (hv : DirOk g cs v)
    (hlist : Listing g cs v items) (hstart : cs[0]? = some w.dir.sclust) (hpos : 0 < name.length)
    (hlen : name.length ≤ 255) (hchars : ∀ c ∈ name, c ≠ 0x00 ∧ c ≠ 0xff) (ts : Timestamp)
    {attr : Byte} (hattr : attr ≠ 0x0f) (clust out : Nat) (hm : 2 * g.clustCnt < n)
    (hn : (slotsOf items).length + lfnCount name + 1 < n) :
    Meets (dirAdd g n out ts name attr clust) (v, w)
      (fun _ s => ∃ pre gaps post cs', items = pre ++ gaps ++ post ∧
        (∀ x ∈ gaps, ∃ e, x = .gap e) ∧ gaps.length ≤ lfnCount name + 1 ∧
        places g cs' ≤
          max (places g cs) ((slotsOf items).length + (lfnCount name + 1) + g.spc * 16) ∧
        Inserted g cs v w pre (.added ts name attr clust) post cs' s.1 s.2)
      fun e s => e = .error .full ∧ s.2.dir.sclust = w.dir.sclust ∧
        ∃ cs', Tended g cs v cs' s.1 ∧ Listing g cs' s.1 items ∧ (s.1.free g).card ≤ 1 ∧
          places g cs' ≤ (slotsOf items).length + (lfnCount name + 1) := by
  have hsclust : w.dir.sclust ≠ 0 := by
    have := (hv.data _ (List.mem_of_getElem? hstart)).1
    omega
  rw [dirAdd, if_neg (by omega), meets_bind, meets_getDir, meets_bind, meets_dirEnter hsclust]
  rw [meets_bind]
  refine (findRun_spec hg ha hv hlist (at_start hstart w.dir) running_zero (Nat.zero_le _) hm
    (by omega)).mono (fun r s hs => ?_) fun e s he => ?_
  · obtain ⟨u, x⟩ := s
    obtain ⟨cs', k, hgrown, hmoved, hrun, hcnt, _, hwide⟩ := hs
    refine (putRun_spec hg ha hgrown.ok (hgrown.listing hlist) hmoved.place hrun hcnt hpos hlen
      hchars ts hattr clust).mono (fun _ s hs => ?_) fun _ _ he => he.elim
    obtain ⟨pre, gaps, post, heq, hgaps, hlength, hins⟩ := hs
    have hstood := hins.stood
    have hfar := hrun.far
    refine ⟨pre, gaps, post, cs', heq, hgaps, hlength, by omega,
      hgrown.toTended.trans hins.tended, ?_, hins.listing⟩
    exact Stood.entered rfl ⟨hstood.fat.trans hmoved.fat, hstood.sclust.trans hmoved.sclust,
      hstood.place, hstood.loaded⟩
  · obtain ⟨he, hsclust, cs', hgrown, hends⟩ := he
    exact ⟨he, hsclust, cs', hgrown.toTended, hgrown.listing hlist, hends⟩

end Demoos.Fat
