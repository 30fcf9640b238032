import Demoos.Fat.Walking

/-!
# The names in a directory

What the places of a directory have in a row: entries that were removed, entries with a short
name alone, and the entries of long names.  `dir_search` finds the first of them that has the
name, and `fat_dir_read` gives one after the other.
-/

namespace Demoos.Fat

open Program
open Function (update update_self update_of_ne)

/-! ## Items -/

/-- What is in a row of places. -/
inductive Item where
  | gap (e : Entry)
  | short (e : Entry)
  | long (name : List Byte) (frags : List Entry) (e : Entry)

namespace Item

def slots : Item → List Entry
  | gap e => [e]
  | short e => [e]
  | long _ frags e => frags ++ [e]

/-- What `dir_search` compares. -/
def Named (name : List Byte) : Item → Prop
  | gap _ => False
  | short e => putSfnName name = sfnName e
  | long name' _ _ => name' = name

instance (name : List Byte) (x : Item) : Decidable (x.Named name) := by
  cases x <;> unfold Named <;> infer_instance

end Item

/-- The fragments of a name, with the end of the name first. -/
structure Spells (name : List Byte) (frags : List Entry) (crc : Byte) : Prop where
  le : frags.length ≤ 20
  head : ∀ e, frags.head? = some e → e 0 &&& 0x40 ≠ 0 ∧ (e 0 &&& 0x1f).toNat = frags.length
  full : 13 * frags.length < name.length + 13
  fits : name.length ≤ 13 * frags.length
  short : name.length ≤ 255
  pos : 0 < frags.length
  frag : ∀ (i : Nat) (e : Entry), frags[i]? = some e → sfnIsFree e = false ∧ e 11 = 0x0f ∧
    e 13 = crc ∧
    parseFrag e lfnIndices = some ((name.drop (13 * (frags.length - 1 - i))).take 13)

/-- An entry that is in use and no fragment. -/
structure Plain (e : Entry) : Prop where
  used : sfnIsFree e = false
  plain : sfnIsLfn e = false

def Item.Ok : Item → Prop
  | gap e => e 0 = 0xe5
  | short e => Plain e
  | long name frags e => Spells name frags (getCrc (sfnName e)) ∧ Plain e

def slotsOf (items : List Item) : List Entry := items.flatMap Item.slots

/-- The directory has the items, and then nothing. -/
structure Listing (g : Geometry) (cs : List Nat) (v : Volume) (items : List Item) : Prop where
  ok : ∀ x ∈ items, x.Ok
  le : (slotsOf items).length ≤ places g cs
  slots : ∀ (j : Nat) (e : Entry), (slotsOf items)[j]? = some e → slot g cs v j = e
  ends : (slotsOf items).length < places g cs →
    sfnIsLast (slot g cs v (slotsOf items).length) = true

section Items

variable {x : Item} {xs ys : List Item} {e : Entry} {name : List Byte} {frags : List Entry}
  {crc : Byte}

@[simp] theorem slotsOf_nil : slotsOf [] = [] := rfl

@[simp] theorem slotsOf_cons : slotsOf (x :: xs) = x.slots ++ slotsOf xs := rfl

@[simp] theorem slotsOf_append : slotsOf (xs ++ ys) = slotsOf xs ++ slotsOf ys :=
  List.flatMap_append

theorem Item.length_slots_pos (x : Item) : 0 < x.slots.length := by
  cases x <;> simp [slots]

theorem sfnIsFree_of_last (h : sfnIsLast e = true) : sfnIsFree e = true := by
  simp only [sfnIsLast, beq_iff_eq] at h
  simp [sfnIsFree, h]

theorem sfnIsLast_of_used (h : sfnIsFree e = false) : sfnIsLast e = false := by
  by_contra hl
  rw [Bool.not_eq_false] at hl
  rw [sfnIsFree_of_last hl] at h
  cases h

theorem Item.Ok.gap_free (h : (Item.gap e).Ok) : sfnIsLast e = false ∧ sfnIsFree e = true := by
  have h : e 0 = 0xe5 := h
  simp [sfnIsLast, sfnIsFree, h]

/-- The first entry of an item that is no gap is in use. -/
theorem Item.Ok.head_used (hx : x.Ok) (hgap : ∀ e, x ≠ .gap e) (he : x.slots.head? = some e) :
    sfnIsFree e = false := by
  cases x with
  | gap e => exact absurd rfl (hgap e)
  | short e' =>
      obtain rfl := Option.some.inj he
      exact hx.used
  | long name frags e' =>
      have hpos := hx.1.pos
      rw [Item.slots, List.head?_append_of_ne_nil _ (List.ne_nil_of_length_pos hpos)] at he
      exact (hx.1.frag 0 e (by rwa [← List.head?_eq_getElem?])).1

end Items

variable {g : Geometry} {v u t : Volume} {w w' : DirState} {cs : List Nat} {c i j k n : Nat}
  {name : List Byte} {e : Entry} {items xs ys : List Item} {x : Item}

theorem Listing.congr (h : Listing g cs v items) (hview : t.view = v.view) :
    Listing g cs t items :=
  ⟨h.ok, h.le, fun j e he => (slot_congr hview).trans (h.slots j e he),
    fun hlt => (slot_congr hview) ▸ h.ends hlt⟩

/-- An entry of an item in the directory. -/
theorem Listing.slot_eq (h : Listing g cs v (xs ++ x :: ys)) (he : x.slots[k]? = some e) :
    slot g cs v ((slotsOf xs).length + k) = e := by
  refine h.slots _ _ ?_
  have hk := (List.getElem?_eq_some_iff.mp he).1
  rw [slotsOf_append, slotsOf_cons, List.getElem?_append_right (by omega), Nat.add_sub_cancel_left,
    List.getElem?_append_left hk, he]

theorem Listing.lt_places (h : Listing g cs v (xs ++ x :: ys)) (hk : k < x.slots.length) :
    (slotsOf xs).length + k < places g cs := by
  have hle := h.le
  rw [slotsOf_append, slotsOf_cons, List.length_append, List.length_append] at hle
  omega

/-! ## Reading a name -/

/-- The buffer has the sector of the handle. -/
def Loaded (v : Volume) (w : DirState) : Prop := v.disk.value = v.view w.dir.sect

theorem updateDir_loaded (hg : g.Laid) (hv : DirOk g cs v) (hat : At g cs w.dir j) :
    Meets updateDir (v, w) (fun _ s => Browsed g cs v s.1 ∧ s.2 = w ∧ Loaded s.1 w)
      fun _ _ => False :=
  (updateDir_spec hg hv hat).mono (fun _ _ hs => ⟨hs.1, hs.2.1, by
    rw [Loaded, hs.1.view_eq, hs.2.2.2]⟩) fun _ _ he => he

theorem Loaded.entry (h : Loaded v w) (hat : At g cs w.dir j) :
    entryAt v.disk.value w.dir.idx = slot g cs v j := hat.entryAt_eq h

/-- A fragment gets into `g_buf`. -/
theorem readFrag_spec {is : List Nat} {piece : List Byte} (h : parseFrag e is = some piece) :
    Meets (readFrag e is k) (v, w)
      (fun _ s => s = (v, { w with buf := Tape.splice w.buf k piece, len := w.len + piece.length }))
      fun _ _ => False := by
  induction is generalizing k w piece with
  | nil =>
      obtain rfl := Option.some.inj h
      rw [readFrag, meets_pure, Tape.splice_nil]
      rfl
  | cons i is ih =>
      rw [parseFrag] at h
      rw [readFrag]
      split at h
      next => cases h
      next hff =>
        rw [if_neg hff]
        split at h
        next hz =>
          obtain rfl := Option.some.inj h
          rw [if_pos hz, meets_pure, Tape.splice_nil]
          rfl
        next hz =>
          obtain ⟨rest, hrest, rfl⟩ := Option.map_eq_some_iff.mp h
          rw [if_neg hz, meets_bind, meets_setShared]
          refine (ih hrest).mono (fun _ s hs => ?_) fun _ _ he => he
          rw [hs, List.length_cons]
          have hcons : Tape.splice w.buf k (e i :: rest) =
              Tape.splice (update w.buf k (e i)) (k + 1) rest := by
            rw [← List.singleton_append, Tape.splice_append, Tape.splice_singleton]
            rfl
          rw [hcons, Nat.add_assoc, Nat.add_comm 1]

/-- The end of the name is in `g_buf`, from fragment `cnt` on. -/
structure Spelled (name : List Byte) (cnt : Nat) (w : DirState) : Prop where
  len : w.len = name.length - 13 * cnt
  buf : ∀ (o : Nat) (c : Byte), 13 * cnt ≤ o → name[o]? = some c → w.buf o = c

theorem Spelled.piece (h : Spelled name (k + 1) w) :
    Spelled name k { w with
      buf := Tape.splice w.buf (13 * k) ((name.drop (13 * k)).take 13)
      len := w.len + ((name.drop (13 * k)).take 13).length } where
  len := by
    have := h.len
    simp only [List.length_take, List.length_drop]
    omega
  buf o c hle hc := by
    have hlt := (List.getElem?_eq_some_iff.mp hc).1
    obtain ⟨i, rfl⟩ := Nat.exists_eq_add_of_le hle
    dsimp only
    by_cases hi : i < 13
    · have hget : ((name.drop (13 * k)).take 13)[i]? = some c := by
        rw [List.getElem?_take_of_lt hi, List.getElem?_drop, hc]
      obtain ⟨hlen, hget⟩ := List.getElem?_eq_some_iff.mp hget
      rw [Tape.splice_add hlen, hget]
    · have hlen : ((name.drop (13 * k)).take 13).length ≤ 13 := List.length_take_le _ _
      rw [Tape.splice_of_le (by omega)]
      exact h.buf _ _ (by omega) hc

/-- The handle has gone to a place and the buffer with it. -/
structure Stood (g : Geometry) (cs : List Nat) (w : DirState) (j : Nat) (t : Volume)
    (w' : DirState) : Prop where
  fat : w'.dir.fat = w.dir.fat
  sclust : w'.dir.sclust = w.dir.sclust
  place : At g cs w'.dir j
  loaded : Loaded t w'

/-- The handle has gone on over a name. -/
structure Read (g : Geometry) (cs : List Nat) (w : DirState) (crc : Byte) (name : List Byte)
    (j : Nat) (t : Volume) (w' : DirState) : Prop extends Stood g cs w j t w' where
  crc : w'.crc = crc
  spelled : Spelled name 0 w'

theorem parseFrags_spec (hg : g.Laid) (ha : g.Aligned) (hv : DirOk g cs v)
    (hat : At g cs w.dir j) (hload : Loaded v w) (hlt : j + n < places g cs)
    (hspell : Spelled name n w)
    (hfrag : ∀ i < n, slot g cs v (j + i) 11 = 0x0f ∧ slot g cs v (j + i) 13 = w.crc ∧
      parseFrag (slot g cs v (j + i)) lfnIndices =
        some ((name.drop (13 * (n - 1 - i))).take 13)) :
    Meets (parseFrags g n) (v, w)
      (fun _ s => Browsed g cs v s.1 ∧ Read g cs w w.crc name (j + n) s.1 s.2)
      fun _ _ => False := by
  induction n generalizing v w j with
  | zero => exact ⟨.refl g cs v, ⟨rfl, rfl, hat, hload⟩, rfl, hspell⟩
  | succ n ih =>
      obtain ⟨hattr, hcrc, hparse⟩ := hfrag 0 (by omega)
      rw [Nat.add_zero] at hattr hcrc hparse
      rw [parseFrags, meets_bind, meets_dirPtr, meets_bind, meets_get]
      dsimp only
      rw [hload.entry hat, if_neg (by simp [hattr, hcrc]), meets_bind]
      refine (readFrag_spec hparse).mono (fun _ s hs => ?_) fun _ _ he => he
      obtain ⟨u, x⟩ := s
      obtain ⟨rfl, hx⟩ := Prod.mk.inj hs
      have hdir : x.dir = w.dir := by rw [hx]
      have hxcrc : x.crc = w.crc := by rw [hx]
      have hxspell : Spelled name n x := by
        rw [hx]
        exact hspell.piece
      rw [meets_bind]
      refine (dirNext_spec (w := x) hg ha hv (hdir ▸ hat)).mono (fun _ s hs => ?_) fun _ _ he => ?_
      · obtain ⟨hbrowsed, hmoved⟩ := hs
        obtain ⟨u₁, x₁⟩ := s
        obtain ⟨d, rfl⟩ : ∃ d, x₁ = { x with dir := d } := hmoved.state
        have hu₁ := hv.same hg.toRegular hbrowsed.toSame
        rw [meets_bind]
        refine (updateDir_loaded hg hu₁ hmoved.place).mono (fun _ s hs => ?_) fun _ _ he => he
        obtain ⟨u₂, x₂⟩ := s
        obtain ⟨hbrowsed', rfl, hload'⟩ := hs
        have hb := hbrowsed.trans hbrowsed'
        refine (ih (hu₁.same hg.toRegular hbrowsed'.toSame) hmoved.place hload' (by omega)
          ⟨hxspell.len, hxspell.buf⟩ fun i hi => ?_).mono (fun _ s hs => ?_) fun _ _ he => he
        · rw [slot_congr hb.view_eq, show ({ x with dir := d } : DirState).crc = _ from hxcrc]
          have := hfrag (i + 1) (by omega)
          rwa [show j + (i + 1) = j + 1 + i by omega,
            show n + 1 - 1 - (i + 1) = n - 1 - i by omega] at this
        · obtain ⟨hbrowsed'', hread⟩ := hs
          refine ⟨hb.trans hbrowsed'', ⟨?_, ?_, ?_, hread.loaded⟩, hread.crc.trans hxcrc,
            hread.spelled⟩
          · rw [hread.fat, hmoved.fat, hdir]
          · rw [hread.sclust, hmoved.sclust, hdir]
          · rw [show j + (n + 1) = j + 1 + n by omega]
            exact hread.place
      · have := he.last
        omega

theorem Spelled.window (h : Spelled name 0 w) : Tape.window w.buf 0 name.length = name := by
  refine List.ext_getElem Tape.length_window fun o ho ho' => ?_
  rw [Tape.getElem_window, Nat.zero_add]
  exact h.buf o _ (by omega) (List.getElem?_eq_getElem ho')

/-- The test of `dir_search` for a long name. -/
theorem Spelled.named_iff {name' : List Byte} (h : Spelled name 0 w) :
    (name.length - 13 * 0 = name'.length ∧ Tape.window w.buf 0 name'.length = name') ↔
      name = name' := by
  constructor
  · rintro ⟨hlen, heq⟩
    rw [← heq, ← hlen]
    exact h.window.symm
  · rintro rfl
    exact ⟨rfl, h.window⟩

/-- `parse_lfn_name` reads the name that the fragments spell. -/
theorem parseLfnName_spec (hg : g.Laid) (ha : g.Aligned) (hv : DirOk g cs v)
    {frags : List Entry} {crc : Byte} (hspells : Spells name frags crc) (hat : At g cs w.dir j)
    (hlt : j + frags.length < places g cs)
    (hslots : ∀ (i : Nat) (e : Entry), frags[i]? = some e → slot g cs v (j + i) = e) :
    Meets (parseLfnName g) (v, w)
      (fun _ s => Browsed g cs v s.1 ∧ Read g cs w crc name (j + frags.length) s.1 s.2)
      fun _ _ => False := by
  have hpos := hspells.pos
  have hget : ∀ (i : Nat) (hi : i < frags.length), slot g cs v (j + i) = frags[i] := fun i hi =>
    hslots i _ (List.getElem?_eq_getElem hi)
  have hzero := hget 0 hpos
  obtain ⟨hhead, hcnt⟩ := hspells.head _ (by rw [List.head?_eq_getElem?,
    List.getElem?_eq_getElem hpos])
  rw [Nat.add_zero] at hzero
  rw [parseLfnName, meets_bind]
  refine (updateDir_loaded hg hv hat).mono (fun _ s hs => ?_) fun _ _ he => he
  obtain ⟨u, x⟩ := s
  obtain ⟨hbrowsed, rfl, hload⟩ := hs
  have hentry : entryAt u.disk.value x.dir.idx = frags[0] := by
    rw [hload.entry hat, slot_congr hbrowsed.view_eq, hzero]
  rw [meets_bind, meets_dirPtr, meets_bind, meets_setShared]
  dsimp only
  rw [hentry, if_neg hhead, hcnt, if_neg (by have := hspells.le; omega), meets_bind]
  have hcrc := (hspells.frag 0 _ (List.getElem?_eq_getElem hpos)).2.2.1
  have hspell : Spelled name frags.length { x with crc := frags[0] 13, len := 0 } := by
    have hfits := hspells.fits
    refine ⟨?_, fun o c hle hc => ?_⟩
    · show 0 = _
      omega
    · have := (List.getElem?_eq_some_iff.mp hc).1
      omega
  refine (parseFrags_spec (w := { x with crc := frags[0] 13, len := 0 }) hg ha
    (hv.same hg.toRegular hbrowsed.toSame) hat hload hlt hspell fun i hi => ?_).mono
    (fun _ s hs => ?_) fun _ _ he => he
  · obtain ⟨_, hattr, hcrc', hparse⟩ := hspells.frag i _ (List.getElem?_eq_getElem hi)
    rw [slot_congr hbrowsed.view_eq, hget i hi]
    exact ⟨hattr, hcrc'.trans hcrc.symm, hparse⟩
  · obtain ⟨hbrowsed', hread⟩ := hs
    rw [meets_bind, meets_get, hread.spelled.len, if_pos (by have := hspells.short; omega)]
    exact ⟨hbrowsed.trans hbrowsed', ⟨hread.fat, hread.sclust, hread.place, hread.loaded⟩,
      hread.crc.trans hcrc, hread.spelled⟩

/-! ## Going over the items -/

/-- The last place of the item behind `xs`. -/
def lastPlace (xs : List Item) (x : Item) : Nat := (slotsOf xs).length + (x.slots.length - 1)

theorem Listing.ok_mid (h : Listing g cs v (xs ++ x :: ys)) : x.Ok :=
  h.ok x (List.mem_append_right xs List.mem_cons_self)

/-- The entry of a name, behind its fragments. -/
theorem Listing.slot_last {frags : List Entry} {name : List Byte}
    (h : Listing g cs v (xs ++ .long name frags e :: ys)) :
    slot g cs v ((slotsOf xs).length + frags.length) = e :=
  h.slot_eq (by rw [Item.slots, List.getElem?_append_right (Nat.le_refl _), Nat.sub_self]; rfl)

theorem length_slotsOf_concat (xs : List Item) (x : Item) :
    (slotsOf (xs ++ [x])).length = lastPlace xs x + 1 := by
  have := x.length_slots_pos
  rw [slotsOf_append, slotsOf_cons, slotsOf_nil, List.append_nil, List.length_append, lastPlace]
  omega

theorem Listing.head_eq (h : Listing g cs v (xs ++ x :: ys)) (he : x.slots.head? = some e) :
    slot g cs v (slotsOf xs).length = e := h.slot_eq (k := 0) (by rwa [← List.head?_eq_getElem?])

theorem Item.exists_head (x : Item) : ∃ e, x.slots.head? = some e := by
  obtain ⟨e, es, he⟩ := List.exists_cons_of_length_pos x.length_slots_pos
  exact ⟨e, by rw [he]; rfl⟩

/-- Behind the last place there is no item any more. -/
theorem Listing.eq_nil_of_past (h : Listing g cs v (xs ++ x :: ys))
    (hpast : lastPlace xs x + 1 = places g cs) : ys = [] := by
  have hle := h.le
  rw [show xs ++ x :: ys = (xs ++ [x]) ++ ys by simp, slotsOf_append, List.length_append,
    length_slotsOf_concat] at hle
  cases ys with
  | nil => rfl
  | cons y ys =>
      have := y.length_slots_pos
      rw [slotsOf_cons, List.length_append] at hle
      omega

/-- A round of the functions that go over a directory, past what is free and as far as its end. -/
def roundAt {α : Type} (g : Geometry) (act : Entry → DirM (Unit ⊕ α)) : DirM (Unit ⊕ α) := do
  updateDir
  let e ← dirPtr
  if sfnIsLast e then fail .eof
  else if sfnIsFree e then do
    dirNext g
    pure (.inl ())
  else act e

section Scan

variable {α : Type} {act : Entry → DirM (Unit ⊕ α)}

/-- The round behind the items. -/
theorem roundAt_end (hg : g.Laid) (hv : DirOk g cs v) (hlist : Listing g cs v items)
    (hat : At g cs w.dir (slotsOf items).length) :
    Meets (roundAt g act) (v, w) (fun _ _ => False)
      fun e s => e = .error .eof ∧ Browsed g cs v s.1 ∧ s.2.dir.sclust = w.dir.sclust := by
  rw [roundAt, meets_bind]
  refine (updateDir_loaded hg hv hat).mono (fun _ s hs => ?_) fun _ _ he => he.elim
  obtain ⟨u, w⟩ := s
  obtain ⟨hbrowsed, rfl, hload⟩ := hs
  have hentry := hload.entry hat
  rw [meets_bind, meets_dirPtr]
  dsimp only
  rw [hentry, slot_congr hbrowsed.view_eq, hlist.ends hat.lt_places, if_pos rfl, meets_fail]
  exact ⟨rfl, hbrowsed, rfl⟩

/-- A round at a gap. -/
theorem roundAt_gap (hg : g.Laid) (ha : g.Aligned) (hv : DirOk g cs v)
    (hlist : Listing g cs v (xs ++ .gap e :: ys)) (hat : At g cs w.dir (slotsOf xs).length) :
    Meets (roundAt g act) (v, w)
      (fun r s => r = .inl () ∧ Browsed g cs v s.1 ∧
        Moved g cs w s.2 (slotsOf (xs ++ [.gap e])).length)
      fun er s => er = .error .eof ∧ Browsed g cs v s.1 ∧ s.2.dir.sclust = w.dir.sclust ∧
        ys = [] := by
  rw [roundAt, meets_bind]
  refine (updateDir_loaded hg hv hat).mono (fun _ s hs => ?_) fun _ _ he => he.elim
  obtain ⟨u, w⟩ := s
  obtain ⟨hbrowsed, rfl, hload⟩ := hs
  have hentry := hload.entry hat
  have hlist' := hlist.congr hbrowsed.view_eq
  rw [hlist'.head_eq rfl] at hentry
  rw [meets_bind, meets_dirPtr]
  dsimp only
  obtain ⟨hlast, hfree⟩ := Item.Ok.gap_free hlist.ok_mid
  rw [hentry, hlast, if_neg Bool.false_ne_true, hfree, if_pos rfl, meets_bind]
  refine (dirNext_spec hg ha (hv.same hg.toRegular hbrowsed.toSame) hat).mono (fun _ s hs => ?_)
    fun _ s he => ?_
  · rw [meets_pure, length_slotsOf_concat]
    exact ⟨rfl, hbrowsed.trans hs.1, hs.2⟩
  · exact ⟨he.eof, hbrowsed.trans he.browsed, by rw [he.state], hlist.eq_nil_of_past he.last⟩

/-- A round at an item in use. -/
theorem roundAt_used {Q : Unit ⊕ α → Volume × DirState → Prop}
    {E : Stop FatError → Volume × DirState → Prop} (hg : g.Laid) (hv : DirOk g cs v)
    (hlist : Listing g cs v (xs ++ x :: ys)) (hat : At g cs w.dir (slotsOf xs).length)
    (hgap : ∀ e, x ≠ .gap e)
    (hact : ∀ u e, Browsed g cs v u → Loaded u w → x.slots.head? = some e →
      Meets (act e) (u, w) Q E) :
    Meets (roundAt g act) (v, w) Q E := by
  obtain ⟨e, he⟩ := x.exists_head
  rw [roundAt, meets_bind]
  refine (updateDir_loaded hg hv hat).mono (fun _ s hs => ?_) fun _ _ he => he.elim
  obtain ⟨u, w⟩ := s
  obtain ⟨hbrowsed, rfl, hload⟩ := hs
  have hentry := hload.entry hat
  have hlist' := hlist.congr hbrowsed.view_eq
  rw [hlist'.head_eq he] at hentry
  rw [meets_bind, meets_dirPtr]
  dsimp only
  have hused := hlist.ok_mid.head_used hgap he
  rw [hentry, sfnIsLast_of_used hused, if_neg Bool.false_ne_true, hused, if_neg Bool.false_ne_true]
  exact hact u e hbrowsed hload he

end Scan

/-! ## `dir_search` -/

/-- The name of an item in use is compared with the one that is searched. -/
theorem entryNamed_spec (hg : g.Laid) (ha : g.Aligned) (hv : DirOk g cs v)
    (hlist : Listing g cs v (xs ++ x :: ys)) (hat : At g cs w.dir (slotsOf xs).length)
    (hload : Loaded v w) (he : x.slots.head? = some e) (hgap : ∀ e, x ≠ .gap e)
    (name : List Byte) :
    Meets (entryNamed g name e) (v, w)
      (fun r s => r = decide (x.Named name) ∧ Browsed g cs v s.1 ∧
        Stood g cs w (lastPlace xs x) s.1 s.2)
      fun _ _ => False := by
  have hok := hlist.ok_mid
  cases x with
  | gap e => exact absurd rfl (hgap e)
  | short e' =>
      obtain rfl : e' = e := Option.some.inj he
      have hplain : Plain e' := hok
      rw [entryNamed, hplain.plain, if_neg Bool.false_ne_true, meets_pure]
      exact ⟨rfl, .refl g cs v, rfl, rfl, hat, hload⟩
  | long name' frags e' =>
      obtain ⟨hspells, hplain⟩ : Spells name' frags (getCrc (sfnName e')) ∧ Plain e' := hok
      have hfrag : sfnIsLfn e = true := by
        rw [Item.slots, List.head?_append_of_ne_nil _ (List.ne_nil_of_length_pos hspells.pos),
          List.head?_eq_getElem?] at he
        rw [sfnIsLfn, (hspells.frag 0 e he).2.1]
        rfl
      rw [entryNamed, hfrag, if_pos rfl, meets_bind]
      refine (parseLfnName_spec hg ha hv hspells hat
        (hlist.lt_places (by rw [Item.slots, List.length_append]; exact Nat.lt_succ_self _))
        fun i e he => hlist.slot_eq ?_).mono (fun _ s hs => ?_) fun _ _ he => he
      · rw [Item.slots, List.getElem?_append_left (List.getElem?_eq_some_iff.mp he).1, he]
      obtain ⟨hbrowsed, hread⟩ := hs
      have hentry := hread.loaded.entry hread.place
      rw [slot_congr hbrowsed.view_eq, hlist.slot_last] at hentry
      rw [meets_bind, meets_dirPtr, meets_bind, meets_get, hentry]
      rw [if_neg (by simp [hplain.used, hplain.plain, hread.crc]), meets_pure]
      refine ⟨?_, hbrowsed, hread.fat, hread.sclust, ?_, hread.loaded⟩
      · rw [hread.spelled.len, decide_eq_decide]
        exact hread.spelled.named_iff
      · rw [lastPlace, Item.slots, List.length_append]
        exact hread.place

/-- The place as a `Loc`. -/
def locAt (g : Geometry) (cs : List Nat) (j : Nat) : Loc := ⟨fileSect g cs (j / 16), 32 * (j % 16)⟩

/-- What a round of `dir_search` at the item `x` gives. -/
structure Visited (g : Geometry) (cs : List Nat) (w : DirState) (name : List Byte)
    (xs : List Item) (x : Item) (r : Unit ⊕ Loc) (t : Volume) (w' : DirState) : Prop where
  fat : w'.dir.fat = w.dir.fat
  sclust : w'.dir.sclust = w.dir.sclust
  found : ∀ loc, r = .inr loc → x.Named name ∧ loc = locAt g cs (slotsOf xs).length ∧
    At g cs w'.dir (lastPlace xs x) ∧ Loaded t w'
  more : ∀ y, r = .inl y → ¬ x.Named name ∧ At g cs w'.dir (slotsOf (xs ++ [x])).length

theorem searchStep_eq (g : Geometry) (name : List Byte) :
    searchStep g name = roundAt g (fun e => do
      let d ← getDir
      if ← entryNamed g name e then pure (.inr ⟨d.sect, d.idx⟩)
      else do
        dirNext g
        pure (.inl ())) := rfl

theorem searchStep_spec (hg : g.Laid) (ha : g.Aligned) (hv : DirOk g cs v)
    (hlist : Listing g cs v (xs ++ x :: ys)) (hat : At g cs w.dir (slotsOf xs).length)
    (name : List Byte) :
    Meets (searchStep g name) (v, w)
      (fun r s => Browsed g cs v s.1 ∧ Visited g cs w name xs x r s.1 s.2)
      fun e s => e = .error .eof ∧ Browsed g cs v s.1 ∧ s.2.dir.sclust = w.dir.sclust ∧
        ¬ x.Named name ∧ ys = [] := by
  rw [searchStep_eq]
  by_cases hgap : ∃ e', x = .gap e'
  · obtain ⟨e', rfl⟩ := hgap
    refine (roundAt_gap hg ha hv hlist hat).mono (fun r s hs => ?_) fun e s he => ?_
    · obtain ⟨rfl, hbrowsed, hmoved⟩ := hs
      exact ⟨hbrowsed, hmoved.fat, hmoved.sclust, fun _ h => (by cases h),
        fun _ _ => ⟨id, hmoved.place⟩⟩
    · obtain ⟨he, hbrowsed, hsclust, hys⟩ := he
      exact ⟨he, hbrowsed, hsclust, id, hys⟩
  rw [not_exists] at hgap
  refine roundAt_used hg hv hlist hat hgap fun u e hbrowsed hload he => ?_
  have hu := hv.same hg.toRegular hbrowsed.toSame
  rw [meets_bind, meets_getDir, meets_bind]
  refine (entryNamed_spec hg ha hu (hlist.congr hbrowsed.view_eq) hat hload he hgap name).mono
    (fun r s hs => ?_) fun _ _ he => he.elim
  obtain ⟨rfl, hbrowsed', hstood⟩ := hs
  have hb := hbrowsed.trans hbrowsed'
  by_cases hnamed : x.Named name
  · rw [if_pos (by simpa using hnamed), meets_pure]
    refine ⟨hb, hstood.fat, hstood.sclust, fun loc hloc => ?_, fun _ h => (by cases h)⟩
    obtain rfl := Sum.inr.inj hloc
    exact ⟨hnamed, by rw [locAt, hat.sect, hat.idx], hstood.place, hstood.loaded⟩
  · rw [if_neg (by simpa using hnamed), meets_bind]
    obtain ⟨u', w'⟩ := s
    refine (dirNext_spec hg ha (hv.same hg.toRegular hb.toSame) hstood.place).mono
      (fun _ s hs => ?_) fun _ s he => ?_
    · rw [meets_pure]
      obtain ⟨hbrowsed'', hmoved⟩ := hs
      refine ⟨hb.trans hbrowsed'', hmoved.fat.trans hstood.fat,
        hmoved.sclust.trans hstood.sclust, fun _ h => (by cases h), fun _ _ => ⟨hnamed, ?_⟩⟩
      rw [length_slotsOf_concat]
      exact hmoved.place
    · exact ⟨he.eof, hb.trans he.browsed, by rw [he.state]; exact hstood.sclust, hnamed,
          hlist.eq_nil_of_past he.last⟩

/-- `dir_search` has found the first item of the name. -/
structure Hit (g : Geometry) (cs : List Nat) (w : DirState) (name : List Byte) (xs : List Item)
    (x : Item) (loc : Loc) (t : Volume) (w' : DirState) : Prop extends
    Stood g cs w (lastPlace xs x) t w' where
  named : x.Named name
  first : ∀ y ∈ xs, ¬ y.Named name
  loc_eq : loc = locAt g cs (slotsOf xs).length

theorem at_start (hc : cs[0]? = some c) (d : Dir) :
    At g cs { d with clust := c, sect := clustToSect g c, idx := 0 } 0 := by
  refine ⟨?_, ?_, rfl⟩
  · rw [Nat.zero_div]
    exact hc
  · rw [Nat.zero_div, fileSect, Nat.zero_div, Nat.zero_mod, Nat.add_zero,
      List.getD_eq_getElem?_getD, hc, Option.getD_some]

theorem searchLoop_spec (hg : g.Laid) (ha : g.Aligned) (hv : DirOk g cs v)
    (hlist : Listing g cs v (xs ++ ys)) (hat : At g cs w.dir (slotsOf xs).length)
    (hfirst : ∀ y ∈ xs, ¬ y.Named name) (hn : ys.length < n) :
    Meets (loop (fun _ => searchStep g name) n ()) (v, w)
      (fun loc s => Browsed g cs v s.1 ∧ ∃ xs' x ys', xs ++ ys = xs' ++ x :: ys' ∧
        Hit g cs w name xs' x loc s.1 s.2)
      fun e s => e = .error .eof ∧ Browsed g cs v s.1 ∧ s.2.dir.sclust = w.dir.sclust ∧
        ∀ y ∈ xs ++ ys, ¬ y.Named name := by
  induction n generalizing v w xs ys with
  | zero => omega
  | succ n ih =>
      rw [loop, meets_bind]
      cases ys with
      | nil =>
          rw [List.append_nil] at hlist ⊢
          rw [searchStep_eq]
          exact (roundAt_end hg hv hlist hat).mono (fun _ _ hs => hs.elim)
            fun _ _ he => ⟨he.1, he.2.1, he.2.2, hfirst⟩
      | cons x ys =>
          refine (searchStep_spec hg ha hv hlist hat name).mono (fun r s hs => ?_) fun e s he => ?_
          · obtain ⟨hbrowsed, hvisit⟩ := hs
            cases r with
            | inl y =>
                obtain ⟨hnot, hplace⟩ := hvisit.more y rfl
                have happ : xs ++ x :: ys = (xs ++ [x]) ++ ys := by simp
                rw [happ] at hlist ⊢
                refine (ih (hv.same hg.toRegular hbrowsed.toSame)
                  (hlist.congr hbrowsed.view_eq) hplace ?_ (by simpa using hn)).mono
                  (fun loc s hs => ?_) fun e s he => ?_
                · intro y hy
                  rcases List.mem_append.mp hy with hy | hy
                  · exact hfirst y hy
                  · rwa [List.mem_singleton.mp hy]
                · obtain ⟨hbrowsed', xs', x', ys', heq, hfound⟩ := hs
                  exact ⟨hbrowsed.trans hbrowsed', xs', x', ys', heq,
                    ⟨hfound.fat.trans hvisit.fat, hfound.sclust.trans hvisit.sclust,
                      hfound.place, hfound.loaded⟩, hfound.named, hfound.first, hfound.loc_eq⟩
                · obtain ⟨he, hbrowsed', hsclust, hnone⟩ := he
                  exact ⟨he, hbrowsed.trans hbrowsed', hsclust.trans hvisit.sclust, hnone⟩
            | inr loc =>
                obtain ⟨hnamed, hloc, hplace, hload⟩ := hvisit.found loc rfl
                exact ⟨hbrowsed, xs, x, ys, rfl, ⟨hvisit.fat, hvisit.sclust, hplace, hload⟩,
                  hnamed, hfirst, hloc⟩
          · obtain ⟨he, hbrowsed, hsclust, hnot, rfl⟩ := he
            refine ⟨he, hbrowsed, hsclust, fun y hy => ?_⟩
            rcases List.mem_append.mp hy with hy | hy
            · exact hfirst y hy
            · rwa [List.mem_singleton.mp hy]

/-- `dir_search` finds the first item of the name, or there is none. -/
theorem dirSearch_spec (hg : g.Laid) (ha : g.Aligned) (hv : DirOk g cs v)
    (hlist : Listing g cs v items) (hstart : cs[0]? = some w.dir.sclust) (name : List Byte)
    (hn : items.length < n) :
    Meets (dirSearch g n name) (v, w)
      (fun loc s => Browsed g cs v s.1 ∧ ∃ xs x ys, items = xs ++ x :: ys ∧
        Hit g cs w name xs x loc s.1 s.2)
      fun e s => e = .error .eof ∧ Browsed g cs v s.1 ∧ s.2.dir.sclust = w.dir.sclust ∧
        ∀ y ∈ items, ¬ y.Named name := by
  rw [dirSearch, meets_bind, meets_getDir, meets_bind, dirAtClust, meets_setDir]
  have hlist : Listing g cs v ([] ++ items) := hlist
  refine (searchLoop_spec hg ha hv hlist (at_start hstart w.dir)
    (fun y hy => (List.not_mem_nil hy).elim) hn).mono (fun loc s hs => ?_) fun _ _ he => he
  obtain ⟨hbrowsed, xs, x, ys, heq, hfound⟩ := hs
  exact ⟨hbrowsed, xs, x, ys, heq, ⟨hfound.fat, hfound.sclust, hfound.place, hfound.loaded⟩,
    hfound.named, hfound.first, hfound.loc_eq⟩

/-! ## A directory of two names -/

/-- The entry `B` with a short name alone, a gap, and the entry `a` with a long name. -/
def namedSector : Sector := fun i =>
  ([0x42, 0x20, 0x20, 0x20, 0x20, 0x20, 0x20, 0x20, 0x20, 0x20, 0x20, 0x20, 0x00, 0x00, 0x00, 0x00,
    0x21, 0x00, 0x21, 0x00, 0x00, 0x00, 0x00, 0x00, 0x21, 0x00, 0x06, 0x00, 0x00, 0x00, 0x00, 0x00,
    0xe5, 0x00, 0x00, 0x00, 0x00, 0x00, 0x00, 0x00, 0x00, 0x00, 0x00, 0x00, 0x00, 0x00, 0x00, 0x00,
    0x00, 0x00, 0x00, 0x00, 0x00, 0x00, 0x00, 0x00, 0x00, 0x00, 0x00, 0x00, 0x00, 0x00, 0x00, 0x00,
    0x41, 0x61, 0x00, 0x00, 0x00, 0xff, 0xff, 0xff, 0xff, 0xff, 0xff, 0x0f, 0x00, 0x80, 0xff, 0xff,
    0xff, 0xff, 0xff, 0xff, 0xff, 0xff, 0xff, 0xff, 0xff, 0xff, 0x00, 0x00, 0xff, 0xff, 0xff, 0xff,
    0x41, 0x20, 0x20, 0x20, 0x20, 0x20, 0x20, 0x20, 0x20, 0x20, 0x20, 0x20, 0x00, 0x00, 0x00, 0x00,
    0x21, 0x00, 0x21, 0x00, 0x00, 0x00, 0x00, 0x00, 0x21, 0x00, 0x07, 0x00, 0x00, 0x00, 0x00, 0x00]
    : List (BitVec 8)).getD i 0

/-- The small volume with these entries in its cluster 3. -/
def Volume.named : Volume :=
  { Volume.small with disk.store := update smallStore 6 namedSector }

def Item.named : List Item :=
  [.short (slot .small [3, 4] .named 0), .gap (slot .small [3, 4] .named 1),
    .long [0x61] [slot .small [3, 4] .named 2] (slot .small [3, 4] .named 3)]

theorem view_named {s : Nat} (hs : s ≠ 6) : Volume.named.view s = Volume.small.view s :=
  update_of_ne hs _ _

theorem fit_named : Fit .small .named :=
  Volume.fit_small.of_tables Geometry.regular_small
    ⟨fun _ => Volume.quiet_small, fun _ => ⟨fun _ h => absurd rfl h, Volume.sound_small.whole⟩, rfl⟩
    (fun s hs => view_named fun he => by
      have := Geometry.laid_small.low_lt s (.inl hs)
      subst he
      revert this
      decide) rfl

theorem dirOk_named : DirOk .small [3, 4] .named where
  fit := fit_named
  chain := by
    have hcells : Volume.named.cells .small = Volume.small.cells .small :=
      cells_of_tables Geometry.regular_small fun s hs => view_named fun he => by
        have := Geometry.laid_small.low_lt s (.inl hs)
        subst he
        revert this
        decide
    rw [hcells]
    exact dirOk_small.chain
  data := dirOk_small.data

theorem plain_named : Plain (slot .small [3, 4] .named 0) ∧ Plain (slot .small [3, 4] .named 3) :=
  ⟨⟨by decide, by decide⟩, by decide, by decide⟩

theorem gap_named : slot .small [3, 4] .named 1 0 = 0xe5 := by decide

theorem spells_named : Spells [0x61] [slot .small [3, 4] .named 2]
    (getCrc (sfnName (slot .small [3, 4] .named 3))) where
  le := by decide
  head e he := by
    obtain rfl := Option.some.inj he
    decide
  full := by decide
  fits := by decide
  short := by decide
  pos := by decide
  frag i e he := by
    cases i with
    | zero =>
        obtain rfl := Option.some.inj he
        decide
    | succ i => cases he

theorem listing_named : Listing .small [3, 4] .named Item.named where
  ok := by
    refine List.forall_mem_cons.mpr ⟨plain_named.1, List.forall_mem_cons.mpr ⟨gap_named,
      List.forall_mem_cons.mpr ⟨⟨spells_named, plain_named.2⟩, by simp⟩⟩⟩
  le := by decide
  slots j e he := by
    have hmap : slotsOf Item.named = (List.range 4).map (slot .small [3, 4] .named) := rfl
    rw [hmap, List.getElem?_map] at he
    obtain ⟨i, hi, rfl⟩ := Option.map_eq_some_iff.mp he
    have hlt := (List.getElem?_eq_some_iff.mp hi).1
    rw [List.length_range] at hlt
    rw [List.getElem?_range hlt] at hi
    rw [Option.some.inj hi]
  ends _ := by decide

end Demoos.Fat
