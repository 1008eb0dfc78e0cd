import Mathlib

/-!
# Calls that may fail or not return

The outcome of a call on a state: a value or an error with the state after the call, or
nothing if the call does not return.  `andThen` goes on with the value and passes an
error through.  `Post` says what holds whenever the call returns; `Post.andThen` is the
rule for going on.
-/

/-- A value or an error with the state after the call, or nothing if it does not return. -/
abbrev Outcome (σ ε α : Type*) := Option (Except ε α × σ)

namespace Outcome

variable {σ ε α β : Type*} {r : Outcome σ ε α} {f : α → σ → Outcome σ ε β}
  {Q : Except ε α → σ → Prop}

/-- Go on with the value; an error ends the computation. -/
def andThen (r : Outcome σ ε α) (f : α → σ → Outcome σ ε β) : Outcome σ ε β :=
  match r with
  | none => none
  | some (.error e, s) => some (.error e, s)
  | some (.ok a, s) => f a s

@[simp] theorem andThen_ok (a : α) (s : σ) (f : α → σ → Outcome σ ε β) :
    andThen (some (.ok a, s)) f = f a s := rfl

@[simp] theorem andThen_error (e : ε) (s : σ) (f : α → σ → Outcome σ ε β) :
    andThen (some (.error e, s)) f = some (.error e, s) := rfl

@[simp] theorem andThen_none (f : α → σ → Outcome σ ε β) : andThen none f = none := rfl

/-- What holds of the result and of the state if the call returns. -/
def Post (r : Outcome σ ε α) (Q : Except ε α → σ → Prop) : Prop :=
  ∀ res s, r = some (res, s) → Q res s

theorem post_some (h : Q res s) : Post (some (res, s)) Q := by
  rintro _ _ ⟨⟩
  exact h

theorem post_none : Post none Q := by
  rintro _ _ ⟨⟩

theorem Post.mono (h : Post r Q) (hQR : ∀ res s, Q res s → R res s) : Post r R :=
  fun res s hr => hQR res s (h res s hr)

/-- The rule for going on. -/
theorem Post.andThen (h : Post r Q) (herr : ∀ e s, Q (.error e) s → R (.error e) s)
    (hok : ∀ a s, Q (.ok a) s → Post (f a s) R) :
    Post (r.andThen f) R := by
  intro res s hr
  rcases r with _ | ⟨_ | a, s₁⟩
  · cases hr
  · cases hr
    exact herr _ _ (h _ _ rfl)
  · exact hok a s₁ (h _ _ rfl) res s hr

end Outcome
