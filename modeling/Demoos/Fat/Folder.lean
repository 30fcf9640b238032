import Mathlib.Data.Multiset.Basic
import Demoos.Fat.Erasing

/-!
# What a directory is for

A directory binds names to entries, the `Folder` below: a bag of bindings, since the order of the
names and the gaps between them do not count.  Looking for a name, adding one and removing one,
as often as one likes and in any order, gives what the bag gives.  Nothing outside of the
directory and the table of clusters changes on the way.

An addition fails only if the entries of the name have no room behind the last one, and the
volume has one free cluster at most.  The search for a free cluster never looks at the one in
front of the place where it begins.

An entry without fragments is found under every name that makes the same eleven bytes.
-/

namespace Demoos.Fat

open Program

/-! ## The purpose -/

/-- What an entry is found by. -/
inductive Label where
  | short (sfnName : List Byte)
  | long (name : List Byte)

def Label.Names (name : List Byte) : Label → Prop
  | short sfnName => putSfnName name = sfnName
  | long name' => name' = name

structure Binding where
  label : Label
  entry : Entry

/-- The names that a directory binds, and its places for entries, of which those from `used` on
have nothing behind them.  There are more where the volume has free units of places. -/
structure Folder where
  names : Multiset Binding
  used : Nat
  room : Nat
  free : Nat

inductive Wish where
  | find (name : List Byte)
  | add (name : List Byte) (attr : Byte) (clust : Nat)
  | remove (name : List Byte)

inductive Outcome where
  | entry (e : Entry)
  | done
  | error (e : FatError)

/-- Room for `need` entries, in units of `s` places. -/
structure Folder.Widened (s need : Nat) (m m' : Folder) : Prop where
  used_le : m.used ≤ m'.used ∧ m'.used ≤ m.used + need
  room_le : m.room ≤ m'.room ∧ m'.room ≤ max m.room (m.used + need + s)
  conserved : Conserved s m.room m.free m'.room m'.free

/-- What a folder answers, and what it is afterwards. -/
inductive Folder.Next (ts : Timestamp) (s : Nat) : Folder → Wish × Outcome → Folder → Prop
  | find {m : Folder} {b : Binding} {name : List Byte} (hmem : b ∈ m.names)
    (hname : b.label.Names name) : Next ts s m (.find name, .entry b.entry) m
  | notFound {m : Folder} {name : List Byte} (hnone : ∀ b ∈ m.names, ¬ b.label.Names name) :
    Next ts s m (.find name, .error .eof) m
  | add {m m' : Folder} {name : List Byte} {attr : Byte} {clust : Nat}
    (hlen : 0 < name.length ∧ name.length ≤ 255)
    (hnames : m'.names = ⟨.long name, nameEntry ts name attr clust⟩ ::ₘ m.names)
    (hwide : m.Widened s (lfnCount name + 1) m') : Next ts s m (.add name attr clust, .done) m'
  | full {m : Folder} {name : List Byte} {attr : Byte} {clust room free' : Nat}
    (hlen : 0 < name.length ∧ name.length ≤ 255) (hmore : m.room ≤ room)
    (hroom : room ≤ m.used + (lfnCount name + 1))
    (hconserved : Conserved s m.room m.free room free') (hfull : free' ≤ 1) :
    Next ts s m (.add name attr clust, .error .full) { m with room := room, free := free' }
  | addNone {m : Folder} {name : List Byte} {attr : Byte} {clust : Nat}
    (hlen : name.length = 0 ∨ 255 < name.length) :
    Next ts s m (.add name attr clust, .error .param) m
  | remove {m : Folder} {b : Binding} {names : Multiset Binding} {name : List Byte}
    (hnames : m.names = b ::ₘ names) (hname : b.label.Names name) :
    Next ts s m (.remove name, .done) { m with names := names }
  | notRemoved {m : Folder} {name : List Byte} (hnone : ∀ b ∈ m.names, ¬ b.label.Names name) :
    Next ts s m (.remove name, .error .eof) m

/-! ## The code -/

/-- A name that can be read back, and an attribute that is not that of a fragment. -/
def Wish.Ok : Wish → Prop
  | add name attr _ => (∀ c ∈ name, c ≠ 0x00 ∧ c ≠ 0xff) ∧ attr ≠ 0x0f
  | _ => True

instance : DecidablePred Wish.Ok
  | .find _ => .isTrue trivial
  | .add name attr _ =>
      inferInstanceAs (Decidable ((∀ c ∈ name, c ≠ 0x00 ∧ c ≠ 0xff) ∧ attr ≠ 0x0f))
  | .remove _ => .isTrue trivial

/-- A wish as calls, in the way of `follow_path`, `fat_file_open` and `fat_unlink`. -/
def fulfil (g : Geometry) (n out : Nat) (ts : Timestamp) : Wish → DirM Outcome
  | .find name => do
      match ← attempt (do let _ ← dirSearch g n name; dirPtr) with
      | .ok e => pure (.entry e)
      | .error e => pure (.error e)
  | .add name attr clust => do
      match ← attempt (dirAdd g n out ts name attr clust) with
      | .ok _ => pure .done
      | .error e => pure (.error e)
  | .remove name => do
      match ← attempt (do let loc ← dirSearch g n name; removeEntries g n loc) with
      | .ok _ => pure .done
      | .error e => pure (.error e)

/-- One wish to a directory. -/
inductive Fulfils (g : Geometry) (n : Nat) (ts : Timestamp) :
    Volume × DirState → Wish × Outcome → Volume × DirState → Prop
  | mk {s t : Volume × DirState} {out : Nat} {q : Wish} {r : Outcome} (hok : q.Ok)
    (hrun : fulfil g n out ts q s = .ok r t) : Fulfils g n ts s (q, r) t

/-- Rounds enough for any directory. -/
def Ample (g : Geometry) (n : Nat) : Prop :=
  2 * g.clustCnt < n ∧ g.clustCnt * g.spc * 16 + 21 < n

/-! ## One directory -/

variable {g : Geometry} {v u t : Volume} {w w' : DirState} {cs cs' : List Nat} {n out : Nat}
  {name : List Byte} {e : Entry} {items xs ys : List Item} {x : Item} {b : Binding} {ts : Timestamp}
  {m : Folder}

def Item.binding : Item → Option Binding
  | gap _ => none
  | short e => some ⟨.short (sfnName e), e⟩
  | long name _ e => some ⟨.long name, e⟩

def namesOf (items : List Item) : Multiset Binding := items.filterMap Item.binding

def folderOf (g : Geometry) (cs : List Nat) (v : Volume) (items : List Item) : Folder where
  names := namesOf items
  used := (slotsOf items).length
  room := places g cs
  free := (v.free g).card

/-- The handle is one of a directory that has the bindings of the folder, and nothing but the
directory and the table of clusters has changed. -/
structure Holds (g : Geometry) (cs₀ : List Nat) (v₀ : Volume) (cs : List Nat) (items : List Item)
    (s : Volume × DirState) : Prop extends Tended g cs₀ v₀ cs s.1 where
  start : cs[0]? = some s.2.dir.sclust
  listing : Listing g cs s.1 items

theorem Item.exists_binding (h : x.Named name) : ∃ b, x.binding = some b ∧ b.label.Names name := by
  cases x with
  | gap e => exact h.elim
  | short e => exact ⟨_, rfl, h⟩
  | long name' frags e => exact ⟨_, rfl, h⟩

theorem Item.named_of_binding (hb : x.binding = some b) (h : b.label.Names name) :
    x.Named name := by
  cases x with
  | gap e => cases hb
  | short e =>
      obtain rfl := Option.some.inj hb
      exact h
  | long name' frags e =>
      obtain rfl := Option.some.inj hb
      exact h

theorem namesOf_mid (hb : x.binding = some b) :
    namesOf (xs ++ x :: ys) = b ::ₘ namesOf (xs ++ ys) := by
  rw [namesOf, namesOf, List.filterMap_append, List.filterMap_append,
    List.filterMap_cons_some hb, Multiset.cons_coe, Multiset.coe_eq_coe]
  exact List.perm_middle

theorem namesOf_gaps (hgaps : ∀ y ∈ xs, ∃ e, y = .gap e) {zs : List Item} :
    namesOf (zs ++ xs ++ ys) = namesOf (zs ++ ys) := by
  have hnone : xs.filterMap Item.binding = [] := List.filterMap_eq_nil_iff.mpr fun y hy => by
    obtain ⟨e, rfl⟩ := hgaps y hy
    rfl
  rw [namesOf, namesOf, List.filterMap_append, List.filterMap_append, hnone, List.append_nil,
    ← List.filterMap_append]

theorem Item.gaps_gap (x : Item) : ∀ y ∈ x.gaps, ∃ e, y = .gap e := fun y hy => by
  obtain ⟨e, _, rfl⟩ := List.mem_map.mp hy
  exact ⟨e.freed, rfl⟩

theorem length_slots_gaps (xs : List Item) (x : Item) (ys : List Item) :
    (slotsOf (xs ++ x.gaps ++ ys)).length = (slotsOf (xs ++ x :: ys)).length := by
  rw [List.append_assoc]
  simp only [slotsOf_append, slotsOf_gaps, slotsOf_cons, List.length_append, List.length_map]

theorem not_names (h : ∀ y ∈ items, ¬ y.Named name) :
    ∀ b ∈ namesOf items, ¬ b.label.Names name := fun b hb hname => by
  obtain ⟨y, hy, hby⟩ := List.mem_filterMap.mp (Multiset.mem_coe.mp hb)
  exact h y hy (Item.named_of_binding hby hname)

/-- The entry of a binding is in the last place of its item. -/
theorem Listing.entry_eq (h : Listing g cs v (xs ++ x :: ys)) (hb : x.binding = some b) :
    slot g cs v (lastPlace xs x) = b.entry := by
  cases x with
  | gap e => cases hb
  | short e =>
      obtain rfl := Option.some.inj hb
      exact h.slot_eq rfl
  | long name' frags e =>
      obtain rfl := Option.some.inj hb
      rw [lastPlace, Item.slots, List.length_append, List.length_singleton, Nat.add_sub_cancel]
      exact h.slot_last

theorem length_le_slots (items : List Item) : items.length ≤ (slotsOf items).length := by
  induction items with
  | nil => exact Nat.le_refl 0
  | cons x xs ih =>
      have := x.length_slots_pos
      rw [slotsOf_cons, List.length_append, List.length_cons]
      omega

theorem DirOk.places_le (hv : DirOk g cs v) : places g cs ≤ g.clustCnt * g.spc * 16 := by
  rw [places]
  exact Nat.mul_le_mul_right 16 (Nat.mul_le_mul_right g.spc (length_le_of_chain hv.chain))

theorem Listing.length_lt (h : Listing g cs v items) (hv : DirOk g cs v) (hn : Ample g n) :
    (slotsOf items).length + 21 < n :=
  Nat.lt_of_le_of_lt (Nat.add_le_add_right (h.le.trans hv.places_le) 21) hn.2

theorem Stood.start {j : Nat} (h : Stood g cs' w j t w') (hpre : cs <+: cs')
    (hstart : cs[0]? = some w.dir.sclust) : cs'[0]? = some w'.dir.sclust := by
  obtain ⟨ds, rfl⟩ := hpre
  rw [h.sclust, List.getElem?_append_left (List.getElem?_eq_some_iff.mp hstart).1, hstart]

variable {cs₀ : List Nat} {v₀ : Volume}

theorem Holds.browsed (h : Holds g cs₀ v₀ cs items (v, w)) (hg : g.Laid)
    (hb : Browsed g cs v t) (hsclust : w'.dir.sclust = w.dir.sclust) :
    Holds g cs₀ v₀ cs items (t, w') :=
  ⟨h.toTended.trans (hb.tended hg h.ok), by rw [hsclust]; exact h.start,
    h.listing.congr hb.view_eq⟩

theorem folderOf_browsed (h : Browsed g cs v t) : folderOf g cs t items = folderOf g cs v items := by
  rw [folderOf, folderOf, free_congr (cells_congr h.view_eq)]

/-- What a directory gains in places is taken from the free clusters. -/
theorem Tended.conserved (h : Tended g cs v cs' t) :
    Conserved (g.spc * 16) (places g cs) (v.free g).card (places g cs') (t.free g).card := by
  rw [places, places, Nat.mul_assoc, Nat.mul_assoc]
  exact conserved_of_count (g.spc * 16) h.count

/-- The state that a wish leaves holds the folder that the outcome asks for. -/
def Leaves (g : Geometry) (ts : Timestamp) (cs₀ : List Nat) (v₀ : Volume) (m : Folder) (q : Wish)
    (r : Outcome) (s : Volume × DirState) : Prop :=
  ∃ cs items, Folder.Next ts (g.spc * 16) m (q, r) (folderOf g cs s.1 items) ∧
    Holds g cs₀ v₀ cs items s

theorem fulfil_find (hg : g.Laid) (ha : g.Aligned) (hn : Ample g n)
    (h : Holds g cs₀ v₀ cs items (v, w)) :
    Meets (fulfil g n out ts (.find name)) (v, w)
      (Leaves g ts cs₀ v₀ (folderOf g cs v items) (.find name)) fun _ _ => False := by
  have hlen := h.listing.length_lt h.ok hn
  have hle := length_le_slots items
  rw [fulfil, meets_bind, meets_attempt, meets_bind]
  refine (dirSearch_spec hg ha h.ok h.listing h.start name (by omega)).mono (fun loc s hs => ?_)
    fun e s he => ?_
  · obtain ⟨t, w'⟩ := s
    obtain ⟨hbrowsed, xs, x, ys, rfl, hhit⟩ := hs
    obtain ⟨b, hb, hname⟩ := Item.exists_binding hhit.named
    rw [meets_dirPtr]
    dsimp only
    rw [meets_pure, hhit.loaded.entry hhit.place, slot_congr hbrowsed.view_eq,
      h.listing.entry_eq hb]
    refine ⟨cs, xs ++ x :: ys, ?_, h.browsed hg hbrowsed hhit.sclust⟩
    rw [folderOf_browsed hbrowsed]
    refine .find ?_ hname
    show b ∈ namesOf (xs ++ x :: ys)
    rw [namesOf_mid hb]
    exact Multiset.mem_cons_self _ _
  · obtain ⟨t, w'⟩ := s
    obtain ⟨rfl, hbrowsed, hsclust, hnone⟩ := he
    refine ⟨fun e he => ?_, fun h => by cases h⟩
    obtain rfl := Stop.error.inj he
    rw [meets_pure]
    refine ⟨cs, items, ?_, h.browsed hg hbrowsed hsclust⟩
    rw [folderOf_browsed hbrowsed]
    exact .notFound (not_names hnone)

theorem fulfil_remove (hg : g.Laid) (ha : g.Aligned) (hn : Ample g n)
    (h : Holds g cs₀ v₀ cs items (v, w)) :
    Meets (fulfil g n out ts (.remove name)) (v, w)
      (Leaves g ts cs₀ v₀ (folderOf g cs v items) (.remove name)) fun _ _ => False := by
  have hlen := h.listing.length_lt h.ok hn
  have hle := length_le_slots items
  rw [fulfil, meets_bind, meets_attempt, meets_bind]
  refine (dirSearch_spec hg ha h.ok h.listing h.start name (by omega)).mono (fun loc s hs => ?_)
    fun e s he => ?_
  · obtain ⟨t, w'⟩ := s
    obtain ⟨hbrowsed, xs, x, ys, rfl, hhit⟩ := hs
    obtain ⟨b, hb, hname⟩ := Item.exists_binding hhit.named
    have hfound := h.browsed hg hbrowsed hhit.sclust
    have hslots : x.slots.length ≤ n := by
      rw [slotsOf_append, slotsOf_cons, List.length_append, List.length_append] at hlen
      omega
    rw [hhit.loc_eq]
    refine (removeEntries_spec hg ha hfound.ok hfound.listing hhit.place hslots).mono
      (fun _ s hs => ?_) fun _ _ he => he.elim
    obtain ⟨htended, hlist, -, hsclust⟩ := hs
    rw [meets_pure]
    refine ⟨cs, xs ++ x.gaps ++ ys, ?_, hfound.toTended.trans htended, ?_, hlist⟩
    · have hfree : (s.1.free g).card = (v.free g).card := by
        rw [Nat.add_right_cancel htended.count, free_congr (cells_congr hbrowsed.view_eq)]
      have hafter : folderOf g cs s.1 (xs ++ x.gaps ++ ys) =
          { folderOf g cs v (xs ++ x :: ys) with names := namesOf (xs ++ ys) } := by
        rw [folderOf, namesOf_gaps x.gaps_gap, length_slots_gaps, hfree]
        rfl
      rw [hafter]
      exact .remove (namesOf_mid hb) hname
    · rw [hsclust]
      exact hfound.start
  · obtain ⟨t, w'⟩ := s
    obtain ⟨rfl, hbrowsed, hsclust, hnone⟩ := he
    refine ⟨fun e he => ?_, fun h => by cases h⟩
    obtain rfl := Stop.error.inj he
    rw [meets_pure]
    refine ⟨cs, items, ?_, h.browsed hg hbrowsed hsclust⟩
    rw [folderOf_browsed hbrowsed]
    exact .notRemoved (not_names hnone)

theorem fulfil_add (hg : g.Laid) (ha : g.Aligned) (hn : Ample g n)
    (h : Holds g cs₀ v₀ cs items (v, w)) {attr : Byte} {clust : Nat}
    (hok : (Wish.add name attr clust).Ok) :
    Meets (fulfil g n out ts (.add name attr clust)) (v, w)
      (Leaves g ts cs₀ v₀ (folderOf g cs v items) (.add name attr clust)) fun _ _ => False := by
  have hlen := h.listing.length_lt h.ok hn
  rw [fulfil, meets_bind, meets_attempt]
  by_cases hname : name.length = 0 ∨ 255 < name.length
  · rw [dirAdd, if_pos hname, meets_fail]
    refine ⟨fun e he => ?_, fun h => by cases h⟩
    obtain rfl := Stop.error.inj he
    rw [meets_pure]
    exact ⟨cs, items, .addNone hname, h⟩
  have hpos : 0 < name.length := by omega
  have hle : name.length ≤ 255 := by omega
  have hcount : lfnCount name ≤ 20 := by
    rw [lfnCount]
    omega
  refine (dirAdd_spec hg ha h.ok h.listing h.start hpos hle hok.1 ts hok.2 clust out hn.1
    (by omega)).mono (fun _ s hs => ?_) fun e s he => ?_
  · obtain ⟨pre, gaps, post, cs', rfl, hgaps, hlength, hwide, hins⟩ := hs
    rw [meets_pure]
    refine ⟨cs', pre ++ .added ts name attr clust :: post, .add ⟨hpos, hle⟩ ?_
      ⟨?_, ⟨places_mono hins.tended.pre, hwide⟩, hins.tended.conserved⟩,
      h.toTended.trans hins.tended, hins.stood.start hins.tended.pre h.start, hins.listing⟩
    · rw [folderOf, folderOf, namesOf_gaps hgaps, namesOf_mid rfl]
    · have hgapslen := length_slotsOf_gaps hgaps
      have hslots := length_slots_added ts name attr clust
      simp only [folderOf, slotsOf_append, slotsOf_cons, List.length_append]
      omega
  · obtain ⟨rfl, hsclust, cs', htended, hlist, hfree, hroom⟩ := he
    refine ⟨fun e he => ?_, fun h => by cases h⟩
    obtain rfl := Stop.error.inj he
    rw [meets_pure]
    refine ⟨cs', items, .full ⟨hpos, hle⟩ (places_mono htended.pre) hroom htended.conserved hfree,
      h.toTended.trans htended, ?_, hlist⟩
    obtain ⟨ds, rfl⟩ := htended.pre
    rw [hsclust, List.getElem?_append_left (List.getElem?_eq_some_iff.mp h.start).1]
    exact h.start

/-- Every wish is fulfilled as the folder says. -/
theorem fulfil_leaves (hg : g.Laid) (ha : g.Aligned) (hn : Ample g n)
    (h : Holds g cs₀ v₀ cs items (v, w)) (ts : Timestamp) (out : Nat) {q : Wish} (hok : q.Ok) :
    Meets (fulfil g n out ts q) (v, w) (Leaves g ts cs₀ v₀ (folderOf g cs v items) q)
      fun _ _ => False := by
  cases q with
  | find name => exact fulfil_find hg ha hn h
  | add name attr clust => exact fulfil_add hg ha hn h hok
  | remove name => exact fulfil_remove hg ha hn h

/-! ## Runs -/

/-- The directory has the bindings of the folder, and the rest of the volume is as it was. -/
def InFolder (g : Geometry) (cs₀ : List Nat) (v₀ : Volume) (s : Volume × DirState) (m : Folder) :
    Prop := ∃ cs items, folderOf g cs s.1 items = m ∧ Holds g cs₀ v₀ cs items s

/-- Every wish to a directory comes to its end. -/
theorem fulfil_ends {s : Volume × DirState} (hg : g.Laid) (ha : g.Aligned) (hn : Ample g n)
    (hm : InFolder g cs₀ v₀ s m) (ts : Timestamp) {q : Wish} (hok : q.Ok) :
    ∃ r s', Fulfils g n ts s (q, r) s' := by
  obtain ⟨cs, items, _, hholds⟩ := hm
  obtain ⟨r, s', hrun, _⟩ := (fulfil_leaves hg ha hn hholds ts 0 hok).exists_ok
  exact ⟨r, s', .mk hok hrun⟩

/-! ## The folder of the small directory -/

theorem inFolder_named : InFolder .small [3, 4] .named (.named, .small)
    (folderOf .small [3, 4] .named Item.named) :=
  ⟨[3, 4], Item.named, rfl, .refl dirOk_named, rfl, listing_named⟩

theorem ample_named : Ample .small 1000 := ⟨by decide, by decide⟩

/-- An outcome, with the first cluster of an entry. -/
def Outcome.result : Outcome → Except FatError (Option Nat)
  | .entry e => .ok (some (sfnCluster e))
  | .done => .ok none
  | .error e => .error e

theorem fulfil_ends_named : ∃ r s', Fulfils .small 1000 fatGetTimestamp (.named, .small)
    (.remove [0x61], r) s' :=
  fulfil_ends Geometry.laid_small rfl ample_named inFolder_named fatGetTimestamp trivial

end Demoos.Fat
