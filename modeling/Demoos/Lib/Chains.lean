import Mathlib.Data.Finset.Card
import Mathlib.Data.List.Flatten
import Demoos.Lib.LinkedQueue

/-!
# Chains in a table

A table has one cell for each place.  A cell is free, or it links to the next place of a
chain, or it ends one; a cell that is none of these is out of use.  The links of a chain make
a segment (`LinkedQueue.Seg`), so a chain has no place twice and is known from its first place.

`Apart` says of a list of chains that no place is in two of them, or twice in one.  Taking a
free cell for a chain of its own or behind the end of a chain keeps that, and so does freeing
the cells of a chain.
-/

namespace Chains

open Function (update update_self update_of_ne)
open LinkedQueue (Seg)

inductive Cell (α : Type*) where
  | free
  | link (a : α)
  | last
  | unusable
deriving DecidableEq, Repr

variable {α : Type*}

/-- The place that a cell links to. -/
def Cell.next : Cell α → Option α
  | .link a => some a
  | _ => none

theorem Cell.eq_link_of_next {x : Cell α} {b : α} (h : x.next = some b) : x = .link b := by
  cases x with
  | link a => exact congrArg Cell.link (Option.some.inj h)
  | free => cases h
  | last => cases h
  | unusable => cases h

/-- The cells of the places link each to the next, and the last one ends the chain. -/
structure Chain (t : α → Cell α) (cs : List α) : Prop where
  seg : Seg (fun a => (t a).next) cs.head? cs none
  last : ∃ a, cs.getLast? = some a ∧ t a = .last

variable {t t' : α → Cell α} {cs ds : List α} {a c : α} {chains : List (List α)}

namespace Chain

theorem ne_nil (h : Chain t cs) : cs ≠ [] := by
  rintro rfl
  obtain ⟨a, ha, _⟩ := h.last
  cases ha

theorem nodup (h : Chain t cs) : cs.Nodup := h.seg.nodup

theorem unique (h : Chain t cs) (h' : Chain t ds) (hhead : cs.head? = ds.head?) : cs = ds :=
  h.seg.unique (hhead ▸ h'.seg)

/-- A chain depends on the cells of its places only. -/
theorem congr (h : Chain t cs) (heq : ∀ a ∈ cs, t' a = t a) : Chain t' cs := by
  obtain ⟨a, ha, hlast⟩ := h.last
  refine ⟨h.seg.congr fun b hb => by rw [heq b hb], a, ha, ?_⟩
  rw [heq a (List.mem_of_getLast? ha), hlast]

theorem singleton (h : t a = .last) : Chain t [a] := by
  refine ⟨⟨rfl, ?_⟩, a, rfl, h⟩
  show (t a).next = none
  rw [h]
  rfl

theorem singleton_iff : Chain t [a] ↔ t a = .last := by
  refine ⟨fun h => ?_, singleton⟩
  obtain ⟨b, hb, hlast⟩ := h.last
  obtain rfl : a = b := Option.some.inj hb
  exact hlast

theorem cons_cons_iff {b : α} : Chain t (a :: b :: cs) ↔ t a = .link b ∧ Chain t (b :: cs) := by
  constructor
  · intro h
    obtain ⟨_, hnext, hrest⟩ := h.seg
    refine ⟨Cell.eq_link_of_next hnext, ⟨⟨rfl, hrest⟩, ?_⟩⟩
    obtain ⟨d, hd, hlast⟩ := h.last
    exact ⟨d, by rwa [List.getLast?_cons_cons] at hd, hlast⟩
  · rintro ⟨ha, hseg, d, hd, hlast⟩
    refine ⟨⟨rfl, ?_⟩, d, by rwa [List.getLast?_cons_cons], hlast⟩
    show Seg _ (t a).next _ none
    rw [ha]
    exact hseg

/-- The cell of a place of a chain ends it or links on. -/
theorem cell_of_mem (h : Chain t cs) (ha : a ∈ cs) : t a = .last ∨ ∃ b, t a = .link b := by
  induction cs with
  | nil => cases ha
  | cons b cs ih =>
      cases cs with
      | nil =>
          obtain rfl := List.mem_singleton.mp ha
          exact .inl (singleton_iff.mp h)
      | cons d cs =>
          obtain ⟨hb, hrest⟩ := cons_cons_iff.mp h
          rcases List.mem_cons.mp ha with rfl | ha
          · exact .inr ⟨d, hb⟩
          · exact ih hrest ha

theorem ne_free (h : Chain t cs) (ha : a ∈ cs) : t a ≠ .free := by
  rcases h.cell_of_mem ha with heq | ⟨b, heq⟩ <;> simp [heq]

theorem ne_unusable (h : Chain t cs) (ha : a ∈ cs) : t a ≠ .unusable := by
  rcases h.cell_of_mem ha with heq | ⟨b, heq⟩ <;> simp [heq]

/-- A free cell is in no chain. -/
theorem notMem (h : Chain t cs) (hc : t c = .free) : c ∉ cs := fun hmem => h.ne_free hmem hc

/-- The end of a chain goes on to a new end. -/
theorem concat [DecidableEq α] (h : Chain t (cs ++ [a])) (hc : c ∉ cs ++ [a]) :
    Chain (update (update t c .last) a (.link c)) (cs ++ [a] ++ [c]) := by
  have hca : c ≠ a := by
    rintro rfl
    exact hc (List.mem_append_right cs (List.mem_singleton_self c))
  induction cs with
  | nil =>
      refine cons_cons_iff.mpr ⟨update_self _ _ _, singleton ?_⟩
      rw [update_of_ne hca, update_self]
  | cons b cs ih =>
      obtain ⟨d, ds, hds⟩ := List.exists_cons_of_ne_nil (List.append_ne_nil_of_right_ne_nil cs
        (List.cons_ne_nil a []))
      have hb : b ≠ a := by
        rintro rfl
        exact LinkedQueue.notMem_of_nodup_concat h.nodup List.mem_cons_self
      have hbc : b ≠ c := fun he => hc (he ▸ List.mem_cons_self)
      simp only [List.cons_append, hds] at h hc ih ⊢
      obtain ⟨hlink, hrest⟩ := cons_cons_iff.mp h
      refine cons_cons_iff.mpr ⟨?_, ih hrest fun hmem => hc (List.mem_cons_of_mem b hmem)⟩
      rw [update_of_ne hb, update_of_ne hbc, hlink]

end Chain

/-! ## Several chains -/

/-- The chains share no place. -/
structure Apart (t : α → Cell α) (chains : List (List α)) : Prop where
  chain : ∀ cs ∈ chains, Chain t cs
  nodup : chains.flatten.Nodup

namespace Apart

theorem notMem_flatten (h : Apart t chains) (hc : t c = .free) : c ∉ chains.flatten := by
  intro hmem
  obtain ⟨cs, hcs, hin⟩ := List.mem_flatten.mp hmem
  exact (h.chain cs hcs).notMem hc hin

theorem congr (h : Apart t chains) (heq : ∀ a ∈ chains.flatten, t' a = t a) :
    Apart t' chains :=
  ⟨fun cs hcs => (h.chain cs hcs).congr fun a ha =>
    heq a (List.mem_flatten.mpr ⟨cs, hcs, ha⟩), h.nodup⟩

theorem tail (h : Apart t (cs :: chains)) : Apart t chains :=
  ⟨fun ds hds => h.chain ds (List.mem_cons_of_mem cs hds), by
    have := h.nodup
    rw [List.flatten_cons] at this
    exact this.of_append_right⟩

/-- What is in one chain is not in the others. -/
theorem notMem_tail (h : Apart t (cs :: chains)) (ha : a ∈ cs) : a ∉ chains.flatten := by
  intro hmem
  have := h.nodup
  rw [List.flatten_cons, List.nodup_append] at this
  exact this.2.2 a ha a hmem rfl

theorem perm {chains' : List (List α)} (h : Apart t chains) (hp : chains.Perm chains') :
    Apart t chains' :=
  ⟨fun cs hcs => h.chain cs (hp.mem_iff.mpr hcs), hp.flatten.nodup_iff.mp h.nodup⟩

variable [DecidableEq α]

/-- Take a free cell for a new chain. -/
theorem create (h : Apart t chains) (hc : t c = .free) :
    Apart (update t c .last) ([c] :: chains) := by
  have hnot := h.notMem_flatten hc
  refine ⟨?_, ?_⟩
  · intro cs hcs
    rcases List.mem_cons.mp hcs with rfl | hcs
    · exact .singleton (update_self _ _ _)
    · exact (h.chain cs hcs).congr fun a ha =>
        update_of_ne (ne_of_mem_of_not_mem (List.mem_flatten.mpr ⟨cs, hcs, ha⟩) hnot) _ _
  · rw [List.flatten_cons, List.singleton_append]
    exact List.nodup_cons.mpr ⟨hnot, h.nodup⟩

/-- Take a free cell for a chain that is there already. -/
theorem extend (h : Apart t ((cs ++ [a]) :: chains)) (hc : t c = .free) :
    Apart (update (update t c .last) a (.link c)) ((cs ++ [a] ++ [c]) :: chains) := by
  have hnot := h.notMem_flatten hc
  rw [List.flatten_cons, List.mem_append, not_or] at hnot
  have ha : a ∈ cs ++ [a] := List.mem_append_right cs (List.mem_singleton_self a)
  refine ⟨?_, ?_⟩
  · intro ds hds
    rcases List.mem_cons.mp hds with rfl | hds
    · exact (h.chain _ List.mem_cons_self).concat hnot.1
    · refine (h.tail.chain ds hds).congr fun b hb => ?_
      have hmem : b ∈ chains.flatten := List.mem_flatten.mpr ⟨ds, hds, hb⟩
      rw [update_of_ne (ne_of_mem_of_not_mem hmem (h.notMem_tail ha)),
        update_of_ne (ne_of_mem_of_not_mem hmem hnot.2)]
  · have hperm : ((cs ++ [a] ++ [c]) :: chains).flatten.Perm
        (c :: ((cs ++ [a]) :: chains).flatten) := by
      rw [List.flatten_cons, List.flatten_cons, List.append_assoc _ [c]]
      exact List.perm_middle
    refine hperm.nodup_iff.mpr (List.nodup_cons.mpr ⟨?_, h.nodup⟩)
    rw [List.flatten_cons, List.mem_append, not_or]
    exact hnot

end Apart

/-! ## Chains known by their first places -/

/-- The places begin the chains, one each. -/
structure Headed (t : α → Cell α) (heads : List α) (chains : List (List α)) : Prop where
  perm : (chains.map List.head?).Perm (heads.map some)
  apart : Apart t chains

namespace Headed

variable {heads : List α} {h : α}

/-- A chain that begins at one of the places is one of the chains. -/
theorem mem_of_head (hc : Headed t heads chains) (hh : h ∈ heads) (hchain : Chain t cs)
    (hhead : cs.head? = some h) : cs ∈ chains := by
  have hmem : some h ∈ chains.map List.head? := hc.perm.mem_iff.mpr (List.mem_map_of_mem hh)
  obtain ⟨ds, hds, hdh⟩ := List.mem_map.mp hmem
  rwa [hchain.unique (hc.apart.chain ds hds) (hhead.trans hdh.symm)]

theorem exists_chain (hc : Headed t heads chains) (hh : h ∈ heads) :
    ∃ cs, Chain t cs ∧ cs.head? = some h := by
  have hmem : some h ∈ chains.map List.head? := hc.perm.mem_iff.mpr (List.mem_map_of_mem hh)
  obtain ⟨ds, hds, hdh⟩ := List.mem_map.mp hmem
  exact ⟨ds, hc.apart.chain ds hds, hdh⟩

/-- A change of cells that are in no chain. -/
theorem congr (hc : Headed t heads chains) (heq : ∀ a ∈ chains.flatten, t' a = t a) :
    Headed t' heads chains := ⟨hc.perm, hc.apart.congr heq⟩

variable [DecidableEq α]

theorem create (hc : Headed t heads chains) (hfree : t c = .free) :
    Headed (update t c .last) (c :: heads) ([c] :: chains) :=
  ⟨hc.perm.cons _, hc.apart.create hfree⟩

theorem extend (hc : Headed t heads chains) (hmem : cs ++ [a] ∈ chains) (hfree : t c = .free) :
    Headed (update (update t c .last) a (.link c)) heads
      ((cs ++ [a] ++ [c]) :: chains.erase (cs ++ [a])) := by
  have hfront := List.perm_cons_erase hmem
  refine ⟨List.Perm.trans ?_ ((hfront.symm.map List.head?).trans hc.perm),
    (hc.apart.perm hfront).extend hfree⟩
  rw [List.map_cons, List.map_cons, List.head?_append_of_ne_nil _ (by simp)]

/-- A chain is given up, whatever becomes of its cells. -/
theorem remove (hc : Headed t heads chains) (hmem : cs ∈ chains) (hh : h ∈ heads)
    (hhead : cs.head? = some h) (heq : ∀ a, a ∉ cs → t' a = t a) :
    Headed t' (heads.erase h) (chains.erase cs) := by
  have hfront := List.perm_cons_erase hmem
  have hapart := hc.apart.perm hfront
  have hcons : (some h :: (chains.erase cs).map List.head?).Perm
      (some h :: (heads.erase h).map some) := by
    rw [← hhead, ← List.map_cons, hhead, ← List.map_cons]
    exact (hfront.symm.map _).trans (hc.perm.trans ((List.perm_cons_erase hh).map _))
  exact ⟨hcons.cons_inv, hapart.tail.congr fun a ha => heq a fun hin => hapart.notMem_tail hin ha⟩

end Headed

/-- Each of the places begins a chain, and the chains share no place. -/
def Owned (t : α → Cell α) (heads : List α) : Prop := ∃ chains, Headed t heads chains

namespace Owned

variable {heads : List α} {h : α}

theorem exists_chain (ho : Owned t heads) (hh : h ∈ heads) :
    ∃ cs, Chain t cs ∧ cs.head? = some h := ho.elim fun _ hc => hc.exists_chain hh

variable [DecidableEq α]

/-- Take a free cell for no chain. -/
theorem lose {x : Cell α} (ho : Owned t heads) (hfree : t c = .free) :
    Owned (update t c x) heads := by
  obtain ⟨chains, hc⟩ := ho
  exact ⟨chains, hc.congr fun a ha =>
    update_of_ne (ne_of_mem_of_not_mem ha (hc.apart.notMem_flatten hfree)) _ _⟩

theorem create (ho : Owned t heads) (hfree : t c = .free) :
    Owned (update t c .last) (c :: heads) := by
  obtain ⟨chains, hc⟩ := ho
  exact ⟨_, hc.create hfree⟩

theorem extend (ho : Owned t heads) (hh : h ∈ heads) (hchain : Chain t (cs ++ [a]))
    (hhead : (cs ++ [a]).head? = some h) (hfree : t c = .free) :
    Owned (update (update t c .last) a (.link c)) heads := by
  obtain ⟨chains, hc⟩ := ho
  exact ⟨_, hc.extend (hc.mem_of_head hh hchain hhead) hfree⟩

theorem remove (ho : Owned t heads) (hh : h ∈ heads) (hchain : Chain t cs)
    (hhead : cs.head? = some h) (heq : ∀ a, a ∉ cs → t' a = t a) : Owned t' (heads.erase h) := by
  obtain ⟨chains, hc⟩ := ho
  exact ⟨_, hc.remove (hc.mem_of_head hh hchain hhead) hh hhead heq⟩

end Owned

/-- A cell that is part of a chain. -/
def Cell.InUse (x : Cell α) : Prop := x = .last ∨ ∃ a, x = .link a

/-- The chains of the places are all that is in use where `p` holds. -/
def OwnedAll (p : α → Prop) (t : α → Cell α) (heads : List α) : Prop :=
  ∃ chains, Headed t heads chains ∧ ∀ a, p a → (t a).InUse → a ∈ chains.flatten

namespace OwnedAll

variable {heads : List α} {h : α} {p : α → Prop}

theorem owned (ho : OwnedAll p t heads) : Owned t heads := ho.imp fun _ hc => hc.1

variable [DecidableEq α]

theorem create (ho : OwnedAll p t heads) (hfree : t c = .free) :
    OwnedAll p (update t c .last) (c :: heads) := by
  obtain ⟨chains, hc, hall⟩ := ho
  refine ⟨_, hc.create hfree, fun a hp ha => ?_⟩
  rw [List.flatten_cons, List.singleton_append, List.mem_cons]
  by_cases hac : a = c
  · exact .inl hac
  · rw [update_of_ne hac] at ha
    exact .inr (hall a hp ha)

theorem extend (ho : OwnedAll p t heads) (hh : h ∈ heads) (hchain : Chain t (cs ++ [a]))
    (hhead : (cs ++ [a]).head? = some h) (hfree : t c = .free) :
    OwnedAll p (update (update t c .last) a (.link c)) heads := by
  obtain ⟨chains, hc, hall⟩ := ho
  have hmem := hc.mem_of_head hh hchain hhead
  refine ⟨_, hc.extend hmem hfree, fun b hp hb => ?_⟩
  rw [List.flatten_cons, List.mem_append]
  by_cases hba : b = a
  · exact .inl (by simp [hba])
  by_cases hbc : b = c
  · exact .inl (by simp [hbc])
  rw [update_of_ne hba, update_of_ne hbc] at hb
  have hin := hall b hp hb
  rw [(List.perm_cons_erase hmem).flatten.mem_iff, List.flatten_cons, List.mem_append] at hin
  exact hin.imp_left fun h => List.mem_append_left [c] h

/-- A chain that is freed leaves nothing in use. -/
theorem remove (ho : OwnedAll p t heads) (hh : h ∈ heads) (hchain : Chain t cs)
    (hhead : cs.head? = some h) (hin : ∀ a ∈ cs, t' a = .free) (hout : ∀ a, a ∉ cs → t' a = t a) :
    OwnedAll p t' (heads.erase h) := by
  obtain ⟨chains, hc, hall⟩ := ho
  have hmem := hc.mem_of_head hh hchain hhead
  refine ⟨_, hc.remove hmem hh hhead hout, fun a hp ha => ?_⟩
  by_cases hac : a ∈ cs
  · rw [hin a hac] at ha
    rcases ha with ha | ⟨_, ha⟩ <;> cases ha
  · rw [hout a hac] at ha
    have hflat := hall a hp ha
    rw [(List.perm_cons_erase hmem).flatten.mem_iff, List.flatten_cons, List.mem_append] at hflat
    exact hflat.resolve_left hac

end OwnedAll

/-! ## Free cells -/

variable [DecidableEq α]

/-- The places of `s` that have a free cell. -/
def freeIn (s : Finset α) (t : α → Cell α) : Finset α := s.filter fun a => t a = .free

variable {s : Finset α} {x : Cell α}

theorem freeIn_take (hx : x ≠ .free) : freeIn s (update t c x) = (freeIn s t).erase c := by
  ext a
  simp only [freeIn, Finset.mem_filter, Finset.mem_erase]
  by_cases ha : a = c
  · subst ha
    simp [hx]
  · simp [ha]

/-- A cell in use stays in use. -/
theorem freeIn_relink (hx : x ≠ .free) (hc : t c ≠ .free) :
    freeIn s (update t c x) = freeIn s t := by
  rw [freeIn_take hx, Finset.erase_eq_of_notMem]
  simp [freeIn, hc]

theorem card_freeIn_take (hx : x ≠ .free) (hs : c ∈ s) (hc : t c = .free) :
    (freeIn s (update t c x)).card + 1 = (freeIn s t).card := by
  rw [freeIn_take hx]
  exact Finset.card_erase_add_one (Finset.mem_filter.mpr ⟨hs, hc⟩)

/-- The cells of a chain become free. -/
theorem card_freeIn_chain (hchain : Chain t cs) (hs : ∀ a ∈ cs, a ∈ s) :
    (freeIn s fun a => if a ∈ cs then .free else t a).card = (freeIn s t).card + cs.length := by
  have hunion : (freeIn s fun a => if a ∈ cs then .free else t a) =
      freeIn s t ∪ cs.toFinset := by
    ext a
    simp only [freeIn, Finset.mem_filter, Finset.mem_union, List.mem_toFinset]
    by_cases ha : a ∈ cs
    · simp [ha, hs a ha]
    · simp [ha]
  rw [hunion, Finset.card_union_of_disjoint, List.toFinset_card_of_nodup hchain.nodup]
  refine Finset.disjoint_left.mpr fun a ha hmem => ?_
  exact hchain.ne_free (List.mem_toFinset.mp hmem) (Finset.mem_filter.mp ha).2

end Chains
