import Mathlib.Logic.Function.Basic

/-!
# A write-back cache of one slot

The slot holds the value of one key of a store.  A dirty slot is ahead of the store.  The
`view` of the cache is what the store will be once the slot is flushed, and it is what the
operations are about: flushing and loading keep it, and putting a value in the slot updates it
at the key of the slot.

A clean slot has to agree with the store to serve reads.  A slot is empty while it has a key
that is never asked for.
-/

namespace WriteBack

open Function (update update_self update_of_ne update_eq_self)

structure Cache (κ β : Type) where
  store : κ → β
  key : κ
  value : β
  dirty : Bool

namespace Cache

variable {κ β : Type} [DecidableEq κ]

/-- The store, with the dirty slot in the place of the value it is ahead of. -/
def view (c : Cache κ β) : κ → β := if c.dirty then update c.store c.key c.value else c.store

/-- Bring the store up to date. -/
def flush (c : Cache κ β) : Cache κ β := { c with store := c.view, dirty := false }

/-- Take the value of another key from the store. -/
def load (c : Cache κ β) (k : κ) : Cache κ β := { c with key := k, value := c.store k }

/-- Put a value in the slot, ahead of the store. -/
def put (c : Cache κ β) (x : β) : Cache κ β := { c with value := x, dirty := true }

/-- Write to the store past the slot. -/
def write (c : Cache κ β) (k : κ) (x : β) : Cache κ β := { c with store := update c.store k x }

/-- A clean slot holds what the store has, unless it is empty: its key is one of `empty`. -/
def Coherent (empty : κ → Prop) (c : Cache κ β) : Prop :=
  c.dirty = false → ¬ empty c.key → c.value = c.store c.key

variable {c : Cache κ β} {k : κ} {x : β} {empty : κ → Prop}

theorem view_of_clean (h : c.dirty = false) : c.view = c.store := by
  rw [view, h]
  rfl

theorem view_of_dirty (h : c.dirty = true) : c.view = update c.store c.key c.value := by
  rw [view, h]
  rfl

theorem view_other (h : k ≠ c.key) : c.view k = c.store k := by
  rcases Bool.eq_false_or_eq_true c.dirty with hd | hd
  · rw [view_of_dirty hd, update_of_ne h]
  · rw [view_of_clean hd]

@[simp] theorem view_flush : c.flush.view = c.view := rfl

@[simp] theorem store_flush : c.flush.store = c.view := rfl

theorem view_load (h : c.dirty = false) : (c.load k).view = c.view := by
  rw [view_of_clean h]
  exact view_of_clean h

theorem view_put : (c.put x).view = update c.view c.key x := by
  rw [view_of_dirty rfl]
  rcases Bool.eq_false_or_eq_true c.dirty with hd | hd
  · rw [view_of_dirty hd, Function.update_idem]
    rfl
  · rw [view_of_clean hd]
    rfl

/-- What is written to the store at the key of a dirty slot does not show. -/
theorem view_write_of_dirty (h : c.dirty = true) : (c.write c.key x).view = c.view := by
  rw [view_of_dirty h, view_of_dirty (c := c.write c.key x) h]
  exact Function.update_idem _ _ _

theorem view_write_other (h : k ≠ c.key) : (c.write k x).view = update c.view k x := by
  rcases Bool.eq_false_or_eq_true c.dirty with hd | hd
  · rw [view_of_dirty hd, view_of_dirty (c := c.write k x) hd]
    exact Function.update_comm h _ _ _
  · rw [view_of_clean hd]
    exact view_of_clean hd

theorem Coherent.value_eq (h : c.Coherent empty) (hk : ¬ empty c.key) :
    c.value = c.view c.key := by
  rcases Bool.eq_false_or_eq_true c.dirty with hd | hd
  · rw [view_of_dirty hd, update_self]
  · rw [view_of_clean hd, h hd hk]

theorem Coherent.flush (h : c.Coherent empty) : c.flush.Coherent empty := fun _ hk =>
  h.value_eq hk

theorem Coherent.write_other (hc : c.Coherent empty) (h : k ≠ c.key) :
    (c.write k x).Coherent empty := fun hd hk =>
  (hc hd hk).trans (update_of_ne h.symm _ _).symm

omit [DecidableEq κ] in
theorem coherent_load : (c.load k).Coherent empty := fun _ _ => rfl

omit [DecidableEq κ] in
theorem coherent_put : (c.put x).Coherent empty := fun h => absurd h Bool.noConfusion

end Cache

end WriteBack
