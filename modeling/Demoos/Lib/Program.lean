import Mathlib.Tactic.TypeStar

/-!
# Programs that can fail

A program changes a state and ends with a value or with an error, and an error keeps the
changes made before it.  Loops count down a budget of rounds, and a program that uses it up is
`spent`: it has no result yet.

`Meets` is the weakest precondition of two conditions, one for the values and one for the
errors.
-/

/-- Why a program has no value. -/
inductive Stop (ε : Type) where
  | error (e : ε)
  | spent
deriving DecidableEq, Repr

abbrev Program (ε σ α : Type) := EStateM (Stop ε) σ α

namespace Program

variable {ε σ τ α β ι : Type}

/-- End with an error. -/
def fail (e : ε) : Program ε σ α := throw (.error e)

/-- The error of a program as a value.  A spent program stays spent. -/
def attempt (p : Program ε σ α) : Program ε σ (Except ε α) := fun s =>
  match p s with
  | .ok a t => .ok (.ok a) t
  | .error (.error e) t => .ok (.error e) t
  | .error .spent t => .error .spent t

/-- A program on the first of two states. -/
def onFst (p : Program ε σ α) : Program ε (σ × τ) α := fun s =>
  match p s.1 with
  | .ok a t => .ok a (t, s.2)
  | .error e t => .error e (t, s.2)

/-- Repeat until a round ends with a result, in at most the given number of rounds. -/
def loop (body : ι → Program ε σ (ι ⊕ α)) : Nat → ι → Program ε σ α
  | 0, _ => throw .spent
  | n + 1, i => do
      match ← body i with
      | .inl j => loop body n j
      | .inr a => pure a

/-! ## Conditions on the result -/

/-- A value satisfies `Q` and an error satisfies `E`, with the state that they come with. -/
def Meets (p : Program ε σ α) (s : σ) (Q : α → σ → Prop) (E : Stop ε → σ → Prop) : Prop :=
  match p s with
  | .ok a t => Q a t
  | .error e t => E e t

variable {p : Program ε σ α} {f : α → Program ε σ β} {s : σ} {Q Q' : α → σ → Prop}
  {E E' : Stop ε → σ → Prop} {R : σ → σ → Prop}

@[simp] theorem meets_pure {a : α} : Meets (pure a : Program ε σ α) s Q E ↔ Q a s := .rfl

@[simp] theorem meets_throw {e : Stop ε} : Meets (throw e : Program ε σ α) s Q E ↔ E e s := .rfl

@[simp] theorem meets_fail {e : ε} :
    Meets (fail e : Program ε σ α) s Q E ↔ E (.error e) s := .rfl

@[simp] theorem meets_get {Q : σ → σ → Prop} :
    Meets (get : Program ε σ σ) s Q E ↔ Q s s := .rfl

@[simp] theorem meets_set {t : σ} {Q : PUnit → σ → Prop} :
    Meets (set t : Program ε σ PUnit) s Q E ↔ Q ⟨⟩ t := .rfl

@[simp] theorem meets_modify {g : σ → σ} {Q : PUnit → σ → Prop} :
    Meets (modify g : Program ε σ PUnit) s Q E ↔ Q ⟨⟩ (g s) := .rfl

@[simp] theorem meets_modifyGet {g : σ → α × σ} :
    Meets (modifyGet g : Program ε σ α) s Q E ↔ Q (g s).1 (g s).2 := .rfl

@[simp] theorem meets_bind {Q : β → σ → Prop} :
    Meets (p >>= f) s Q E ↔ Meets p s (fun a t => Meets (f a) t Q E) E := by
  simp only [Meets, bind, EStateM.bind]
  cases p s <;> exact .rfl

@[simp] theorem meets_attempt {Q : Except ε α → σ → Prop} :
    Meets (attempt p) s Q E ↔
      Meets p s (fun a => Q (.ok a))
        fun e t => (∀ x, e = .error x → Q (.error x) t) ∧ (e = .spent → E e t) := by
  simp only [Meets, attempt]
  rcases p s with ⟨a, t⟩ | ⟨e | _, t⟩ <;> simp

@[simp] theorem meets_onFst {u : σ × τ} {Q : α → σ × τ → Prop} {E : Stop ε → σ × τ → Prop} :
    Meets (onFst p) u Q E ↔
      Meets p u.1 (fun a t => Q a (t, u.2)) (fun e t => E e (t, u.2)) := by
  simp only [Meets, onFst]
  cases p u.1 <;> exact .rfl

theorem Meets.mono (h : Meets p s Q E) (hQ : ∀ a t, Q a t → Q' a t)
    (hE : ∀ e t, E e t → E' e t) : Meets p s Q' E' := by
  simp only [Meets] at h ⊢
  split
  next heq => rw [heq] at h; exact hQ _ _ h
  next heq => rw [heq] at h; exact hE _ _ h

theorem Meets.and (h : Meets p s Q E) (h' : Meets p s Q' E') :
    Meets p s (fun a t => Q a t ∧ Q' a t) fun e t => E e t ∧ E' e t := by
  simp only [Meets] at h h' ⊢
  split
  next heq => rw [heq] at h h'; exact ⟨h, h'⟩
  next heq => rw [heq] at h h'; exact ⟨h, h'⟩

/-- A program goes on behind another one. -/
theorem Meets.bind {Q' : β → σ → Prop} (h : Meets p s Q E)
    (hf : ∀ a t, Q a t → Meets (f a) t Q' E) : Meets (p >>= f) s Q' E :=
  meets_bind.mpr (h.mono hf fun _ _ he => he)

theorem Meets.of_ok {a : α} {t : σ} (h : Meets p s Q E) (heq : p s = .ok a t) : Q a t := by
  rw [Meets, heq] at h
  exact h

theorem Meets.of_error {e : Stop ε} {t : σ} (h : Meets p s Q E) (heq : p s = .error e t) :
    E e t := by
  rw [Meets, heq] at h
  exact h

/-- A program that meets a condition without an error has a value. -/
theorem Meets.exists_ok (h : Meets p s Q fun _ _ => False) : ∃ a t, p s = .ok a t ∧ Q a t := by
  rw [Meets] at h
  split at h
  next a t heq => exact ⟨a, t, heq, h⟩
  next => exact h.elim

/-- What holds at the beginning of each round holds where the loop ends. -/
theorem meets_loop {body : ι → Program ε σ (ι ⊕ α)} {I : ι → σ → Prop}
    (hstep : ∀ i s, I i s → Meets (body i) s (fun r t => Sum.elim (I · t) (Q · t) r) E)
    (hspent : ∀ i s, I i s → E .spent s) (n : Nat) {i : ι} (hI : I i s) :
    Meets (loop body n i) s Q E := by
  induction n generalizing i s with
  | zero => exact hspent i s hI
  | succ n ih =>
      rw [loop, meets_bind]
      refine (hstep i s hI).mono (fun r t hr => ?_) fun _ _ he => he
      cases r with
      | inl j => exact ih hr
      | inr a => exact hr

/-- A loop whose rounds make a measure smaller is not spent. -/
theorem meets_loop_of_lt {body : ι → Program ε σ (ι ⊕ α)} {I : ι → σ → Prop}
    {μ : ι → σ → Nat}
    (hstep : ∀ i s, I i s →
      Meets (body i) s (fun r t => Sum.elim (fun j => I j t ∧ μ j t < μ i s) (Q · t) r) E)
    {n : Nat} {i : ι} (hI : I i s) (hn : μ i s < n) : Meets (loop body n i) s Q E := by
  induction n generalizing i s with
  | zero => omega
  | succ n ih =>
      rw [loop, meets_bind]
      refine (hstep i s hI).mono (fun r t hr => ?_) fun _ _ he => he
      cases r with
      | inl j => exact ih hr.1 (by have := hr.2; omega)
      | inr a => exact hr

end Program
