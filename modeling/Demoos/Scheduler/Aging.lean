import Demoos.Scheduler.Decision

/-!
# The epochs of priority aging

The loop of priority aging recharges all registered processes until a walk of the
queue meets a positive counter.  A recharge halves the counter and adds the
priority, so a debt shrinks and a credit is never above what it was or twice the
priority.
-/

namespace Demoos

open Function (iterate_succ_apply')

namespace Sched

section Recharge

variable {f : (Pid → Int) → Pid → Int} {ps : List Pid} {fuel : Nat} {counter : Pid → Int}
  {p : Pid}

/-- What holds of the counters and survives a recharge holds of the result. -/
theorem chooseRichest_invariant {P : (Pid → Int) → Prop} (hf : ∀ counter, P counter → P (f counter))
    (hP : P counter) {r : Option Pid × (Pid → Int)}
    (h : chooseRichest f ps fuel counter = some r) : P r.2 := by
  induction fuel generalizing counter with
  | zero => exact absurd h (by simp [chooseRichest])
  | succ n ih =>
      rw [chooseRichest] at h
      split at h
      next => rw [← Option.some.inj h]; exact hP
      next =>
        split at h
        next => rw [← Option.some.inj h]; exact hP
        next => exact ih (hf _ hP) h

/-- A recharge that halves and adds at least one brings a candidate to a
positive counter, in no more rounds than it is in debt. -/
theorem chooseRichest_isSome (hf : ∀ p ∈ ps, ∀ counter, counter p / 2 + 1 ≤ f counter p)
    (hfuel : 1 ≤ fuel ∧ ∀ p ∈ ps, 1 - counter p < fuel) :
    (chooseRichest f ps fuel counter).isSome := by
  induction fuel generalizing counter with
  | zero => omega
  | succ n ih =>
      rw [chooseRichest]
      split
      next => rfl
      next hnone =>
        split
        next => rfl
        next hne =>
          refine ih ⟨?_, fun p hp => ?_⟩
          · obtain ⟨p, hp⟩ := List.exists_mem_of_ne_nil ps hne
            have hle : counter p ≤ 0 := richest_none hnone hp
            have := hfuel.2 p hp
            omega
          · have hle : counter p ≤ 0 := richest_none hnone hp
            have := hf p hp counter
            have := hfuel.2 p hp
            omega

theorem le_foldl_add (g : Pid → Nat) (ps : List Pid) (n : Nat) :
    n ≤ ps.foldl (fun n p => n + g p) n ∧ ∀ p ∈ ps, n + g p ≤ ps.foldl (fun n p => n + g p) n := by
  induction ps generalizing n with
  | nil => exact ⟨le_rfl, fun _ hp => absurd hp List.not_mem_nil⟩
  | cons q ps ih =>
      obtain ⟨hle, hmem⟩ := ih (n + g q)
      refine ⟨(Nat.le_add_right _ _).trans hle, fun p hp => ?_⟩
      rcases List.mem_cons.mp hp with rfl | hp
      · exact hle
      · exact (Nat.add_le_add_right (Nat.le_add_right _ _) _).trans (hmem p hp)

theorem three_le_epochs (a : Sched) : 3 ≤ a.epochs := (le_foldl_add _ _ _).1

theorem lt_epochs (a : Sched) (hp : p < maxProcesses) : 1 - (a.proc p).counter < a.epochs := by
  have hle : 3 + (a.proc p).counter.natAbs ≤ a.epochs :=
    (le_foldl_add (fun p => (a.proc p).counter.natAbs) _ 3).2 p (List.mem_range.mpr hp)
  omega

end Recharge

/-! ## The choice -/

section Choose

variable {f : (Pid → Int) → Pid → Int} {ps : List Pid} {fuel : Nat} {counter : Pid → Int}

/-- The result of the loop, after `n` recharges, each of which met no positive
counter. -/
theorem chooseRichest_eq {r : Option Pid × (Pid → Int)}
    (h : chooseRichest f ps fuel counter = some r) :
    ∃ n, r.2 = f^[n] counter ∧ (∀ m < n, ∀ p ∈ ps, f^[m] counter p ≤ 0) ∧
      (ps = [] → n = 0) ∧ r.1 = (richest r.2 ps).1 := by
  induction fuel generalizing counter with
  | zero => exact absurd h (by simp [chooseRichest])
  | succ k ih =>
      rw [chooseRichest] at h
      split at h
      next p hp =>
        rw [← Option.some.inj h]
        exact ⟨0, rfl, fun m hm => absurd hm (Nat.not_lt_zero m), fun _ => rfl, hp.symm⟩
      next hnone =>
        split at h
        next hnil =>
          rw [← Option.some.inj h]
          exact ⟨0, rfl, fun m hm => absurd hm (Nat.not_lt_zero m), fun _ => rfl, hnone.symm⟩
        next hne =>
          obtain ⟨n, hr, hbefore, _, hrich⟩ := ih h
          refine ⟨n + 1, hr, fun m hm p hp => ?_, fun hnil => absurd hnil hne, hrich⟩
          cases m with
          | zero => exact richest_none hnone hp
          | succ m => exact hbefore m (Nat.lt_of_succ_lt_succ hm) p hp

end Choose

variable {a : Sched} {alg : Algorithm}

/-- `n` recharges of one process. -/
theorem recharge_iterate (a : Sched) (n : Nat) (counter : Pid → Int) (p : Pid) :
    a.recharge^[n] counter p = if p < a.nProcesses then
      (fun c => c / 2 + (a.proc p).priority)^[n] (counter p) else counter p := by
  induction n with
  | zero => simp
  | succ n ih =>
      rw [iterate_succ_apply', iterate_succ_apply', recharge, ih]
      split <;> rfl

/-- Registered processes with a positive priority are recharged to a positive
counter within the epochs that priority aging gets. -/
theorem Lists.select_isSome (h : a.Lists)
    (hp : alg = .priorityAging → ∀ p, p < a.nProcesses → 1 ≤ (a.proc p).priority) :
    (a.select alg).isSome := by
  cases alg with
  | priorityAging =>
      rw [select, agingChoice, Option.isSome_map]
      refine chooseRichest_isSome (fun p hmem counter => ?_)
        ⟨(by decide : 1 ≤ 3).trans (three_le_epochs a), fun p hmem => ?_⟩
      · obtain ⟨_, hlt, _⟩ := h.queued _ p (List.mem_of_mem_filter hmem)
        have := hp rfl p hlt
        rw [recharge, if_pos hlt]
        omega
      · obtain ⟨_, hlt, _⟩ := h.queued _ p (List.mem_of_mem_filter hmem)
        exact lt_epochs a (Nat.lt_of_lt_of_le hlt h.bound)
  | _ => rfl

end Sched

end Demoos
