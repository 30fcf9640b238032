import Mathlib.Logic.Relation

/-!
# Runs of a transition system

A transition system is a predicate on initial states and a relation between a
state and the next.  A run is a path of the reflexive transitive closure, and a
state is reachable if a run from an initial state leads to it.  What holds of every
reachable state is an invariant of the steps.  The same goes for runs of commands,
alone or side by side with those of a second system.
-/

namespace Transition

open Relation (ReflTransGen)

variable {σ τ : Type*}

/-- A run from an initial state leads to `s`. -/
def Reachable (init : σ → Prop) (next : σ → σ → Prop) (s : σ) : Prop :=
  ∃ s₀, init s₀ ∧ ReflTransGen next s₀ s

variable {init : σ → Prop} {next : σ → σ → Prop} {s t : σ}

/-- A property that every step preserves holds along every run. -/
theorem run_invariant {P : σ → Prop} (hstep : ∀ s t, P s → next s t → P t)
    (h : ReflTransGen next s t) (hs : P s) : P t := by
  induction h with
  | refl => exact hs
  | tail _ hnext ih => exact hstep _ _ ih hnext

/-- Run a list of commands, each of which must succeed. -/
def exec {ι : Type*} (f : σ → ι → Option σ) : List ι → σ → Option σ
  | [], s => some s
  | i :: is, s => (f s i).bind (exec f is)

/-- Commands that are steps of the system make a run. -/
theorem run_exec {ι : Type*} {f : σ → ι → Option σ} (hf : ∀ s i t, f s i = some t → next s t)
    {is : List ι} (h : exec f is s = some t) : ReflTransGen next s t := by
  induction is generalizing s with
  | nil =>
      obtain rfl := Option.some.inj h
      exact .refl
  | cons i is ih =>
      obtain ⟨u, hu, hrest⟩ := Option.bind_eq_some_iff.mp h
      exact .head (hf s i u hu) (ih hrest)

/-- Commands that succeed in the states of an invariant are a fold. -/
theorem exec_eq_foldl {ι : Type*} {f : σ → ι → Option σ} {g : σ → ι → σ} {I : σ → Prop}
    {is : List ι} (hstep : ∀ i ∈ is, ∀ s, I s → f s i = some (g s i) ∧ I (g s i)) (hI : I s) :
    exec f is s = some (is.foldl g s) := by
  induction is generalizing s with
  | nil => rfl
  | cons i is ih =>
      obtain ⟨hf, hg⟩ := hstep i List.mem_cons_self s hI
      rw [exec, hf, Option.bind_some]
      exact ih (fun j hj => hstep j (List.mem_cons_of_mem i hj)) hg

/-- What holds of no commands, and of one more after each command, holds of the
commands of a list and the state they lead to. -/
theorem exec_invariant {ι : Type*} {f : σ → ι → Option σ} {P : List ι → σ → Prop}
    (hstep : ∀ is s i t, P is s → f s i = some t → P (is ++ [i]) t) {is : List ι} (h : P [] s)
    (hrun : exec f is s = some t) : P is t := by
  have hsuffix : ∀ js s, P js s → exec f is s = some t → P (js ++ is) t := by
    clear h hrun
    induction is with
    | nil =>
        intro js s hs hrun
        obtain rfl := Option.some.inj hrun
        rw [List.append_nil]
        exact hs
    | cons i is ih =>
        intro js s hs hrun
        obtain ⟨u, hu, hrest⟩ := Option.bind_eq_some_iff.mp hrun
        have hall := ih (js ++ [i]) u (hstep js s i u hs hu) hrest
        rwa [List.append_assoc, List.singleton_append] at hall
  exact hsuffix [] s h hrun

/-- Two systems that stay related through every command of a list, where either
both commands succeed or neither does. -/
theorem exec_rel {ι : Type*} {f : σ → ι → Option σ} {g : τ → ι → Option τ} {R : σ → τ → Prop}
    {is : List ι} (hstep : ∀ i ∈ is, ∀ s t, R s t → Option.Rel R (f s i) (g t i)) {t : τ}
    (h : R s t) : Option.Rel R (exec f is s) (exec g is t) := by
  induction is generalizing s t with
  | nil => exact .some h
  | cons i is ih =>
      have hone := hstep i List.mem_cons_self s t h
      rw [exec, exec]
      generalize f s i = a at hone ⊢
      generalize g t i = b at hone ⊢
      cases hone with
      | none => exact .none
      | some hR => exact ih (fun j hj => hstep j (List.mem_cons_of_mem i hj)) hR

/-- `P` holds of all states that a list of commands goes through. -/
def Always {ι : Type*} (f : σ → ι → Option σ) (P : σ → Prop) : List ι → σ → Prop
  | [], s => P s
  | i :: is, s => P s ∧ ∀ t, f s i = some t → Always f P is t

/-- `Q` holds of all commands of a list, in the states that they are run in. -/
def EachStep {ι : Type*} (f : σ → ι → Option σ) (Q : σ → ι → Prop) : List ι → σ → Prop
  | [], _ => True
  | i :: is, s => ∀ t, f s i = some t → Q s i ∧ EachStep f Q is t

/-- Two conditions on commands that agree in the states of an invariant. -/
theorem eachStep_congr {ι : Type*} {f : σ → ι → Option σ} {I : σ → Prop} {Q Q' : σ → ι → Prop}
    (hstep : ∀ s i t, I s → f s i = some t → I t ∧ (Q s i ↔ Q' s i)) {is : List ι} (hI : I s) :
    EachStep f Q is s ↔ EachStep f Q' is s := by
  induction is generalizing s with
  | nil => exact .rfl
  | cons i is ih =>
      refine forall_congr' fun t => imp_congr_right fun ht => ?_
      obtain ⟨hIt, hiff⟩ := hstep s i t hI ht
      exact and_congr hiff (ih hIt)

/-- If `Q` says which commands keep `P`, then `P` holds throughout exactly if `Q`
holds of each command. -/
theorem always_iff_eachStep {ι : Type*} {f : σ → ι → Option σ} {I P : σ → Prop}
    {Q : σ → ι → Prop}
    (hstep : ∀ s i t, I s → P s → f s i = some t → I t ∧ (P t ↔ Q s i)) {is : List ι}
    (hI : I s) (hP : P s) : Always f P is s ↔ EachStep f Q is s := by
  induction is generalizing s with
  | nil => exact ⟨fun _ => trivial, fun _ => hP⟩
  | cons i is ih =>
      constructor
      · rintro ⟨_, hall⟩ t ht
        obtain ⟨hIt, hiff⟩ := hstep s i t hI hP ht
        have hrest := hall t ht
        have hPt : P t := by
          cases is with
          | nil => exact hrest
          | cons => exact hrest.1
        exact ⟨hiff.mp hPt, (ih hIt hPt).mp hrest⟩
      · intro hall
        refine ⟨hP, fun t ht => ?_⟩
        obtain ⟨hIt, hiff⟩ := hstep s i t hI hP ht
        obtain ⟨hQ, hrest⟩ := hall t ht
        exact (ih hIt (hiff.mpr hQ)).mpr hrest

namespace Reachable

theorem start (h : init s) : Reachable init next s := ⟨s, h, .refl⟩

theorem run (h : Reachable init next s) (hrun : ReflTransGen next s t) :
    Reachable init next t := by
  obtain ⟨s₀, h₀, hs⟩ := h
  exact ⟨s₀, h₀, hs.trans hrun⟩

theorem step (h : Reachable init next s) (hnext : next s t) : Reachable init next t :=
  h.run (.single hnext)

/-- A property that holds initially and that every step preserves holds of every
reachable state. -/
theorem invariant {P : σ → Prop} (h : Reachable init next s) (hinit : ∀ s, init s → P s)
    (hstep : ∀ s t, P s → next s t → P t) : P s := by
  obtain ⟨s₀, h₀, hs⟩ := h
  exact run_invariant hstep hs (hinit s₀ h₀)

/-- Fewer initial states reach fewer states. -/
theorem mono {init' : σ → Prop} (h : Reachable init next s) (hinit : ∀ s, init s → init' s) :
    Reachable init' next s := by
  obtain ⟨s₀, h₀, hs⟩ := h
  exact ⟨s₀, hinit s₀ h₀, hs⟩

end Reachable

/-! ## Labelled runs -/

/-- A path of steps with the labels that are listed. -/
inductive Trace {ι : Type*} (next : σ → ι → σ → Prop) : σ → List ι → σ → Prop
  | nil (s : σ) : Trace next s [] s
  | cons {s u t : σ} {i : ι} {is : List ι} (hstep : next s i u) (hrest : Trace next u is t) :
    Trace next s (i :: is) t

/-- A system whose every step is matched by one of another system has its traces matched. -/
theorem Trace.simulates {ι : Type*} {next : σ → ι → σ → Prop} {next' : τ → ι → τ → Prop}
    {R : σ → τ → Prop} {is : List ι}
    (hstep : ∀ s a i t, R s a → next s i t → ∃ b, next' a i b ∧ R t b)
    (h : Trace next s is t) {a : τ} (hR : R s a) : ∃ b, Trace next' a is b ∧ R t b := by
  induction h generalizing a with
  | nil s => exact ⟨a, .nil a, hR⟩
  | cons hnext _ ih =>
      obtain ⟨b, hb, hRb⟩ := hstep _ _ _ _ hR hnext
      obtain ⟨c, hc, hRc⟩ := ih hRb
      exact ⟨c, .cons hb hc, hRc⟩

end Transition
