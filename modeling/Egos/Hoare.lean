/-
**Pre- and postconditions for stateful code that may panic.**

The C code modelled in this development works on a state it mutates in place, and it may stop in
the middle of a function: `panic` and `FATAL` never return, and the state they leave behind is the
state at that point.  Such code is embedded in the monad `EStateM ε σ`, whose failures carry the
state, and this module supplies the rules to reason about it.  Nothing here refers to a particular
program.

Main definitions:

* `Hoare.Triple` — from every state satisfying `P`, the program either returns, with `Q` of the
  result and the final state, or fails, with `E` of the error and the state it failed in.

Main results:

* `Hoare.Triple.bind`, `Hoare.Triple.get_bind` — the sequencing rules;
* `Hoare.Triple.conseq`, `Hoare.Triple.and` — the rules of consequence and of conjunction;
* `Hoare.Triple.total` — what a triple says about a run whose failures are excluded.
-/

import Mathlib.Logic.Basic

set_option autoImplicit false

namespace Hoare

variable {ε σ α β : Type}

/-- `Triple P m Q E`: run from a state satisfying `P`, the program `m` either returns with `Q` or
fails with `E`.  There is no third possibility: the programs are total functions. -/
def Triple (P : σ → Prop) (m : EStateM ε σ α) (Q : α → σ → Prop) (E : ε → σ → Prop) : Prop :=
  ∀ s, P s →
    match m s with
    | .ok a s' => Q a s'
    | .error e s' => E e s'

/-- A program that first reads the state. -/
theorem get_bind_apply (k : σ → EStateM ε σ β) (s : σ) : (MonadState.get >>= k) s = k s s := rfl

/-- Running one program after another, from a state. -/
theorem bind_apply (m : EStateM ε σ α) (k : α → EStateM ε σ β) (s : σ) :
    (m >>= k) s = match m s with
      | .ok a s' => k a s'
      | .error e s' => .error e s' := rfl

namespace Triple

variable {P P' : σ → Prop} {Q Q' : α → σ → Prop} {R : β → σ → Prop} {E E' : ε → σ → Prop}

/-- The rule of consequence. -/
theorem conseq {m : EStateM ε σ α} (h : Triple P m Q E) (hP : ∀ s, P' s → P s)
    (hQ : ∀ a s, Q a s → Q' a s) (hE : ∀ e s, E e s → E' e s) : Triple P' m Q' E' := by
  intro s hs
  have hm := h s (hP s hs)
  cases hms : m s with
  | ok a s' =>
      rw [hms] at hm
      exact hQ a s' hm
  | error e s' =>
      rw [hms] at hm
      exact hE e s' hm

/-- A program that does the same from the states of the precondition. -/
theorem congr {m m' : EStateM ε σ α} (h : Triple P m' Q E) (hm : ∀ s, P s → m s = m' s) :
    Triple P m Q E := by
  intro s hs
  rw [hm s hs]
  exact h s hs

/-- Returning a value. -/
theorem pure {a : α} (h : ∀ s, P s → Q a s) :
    Triple P (Pure.pure a : EStateM ε σ α) Q E := fun s hs => h s hs

/-- Failing. -/
theorem throw {e : ε} (h : ∀ s, P s → E e s) :
    Triple P (MonadExcept.throw e : EStateM ε σ α) Q E := fun s hs => h s hs

/-- Running one program after another. -/
theorem bind {m : EStateM ε σ α} {k : α → EStateM ε σ β} (hm : Triple P m Q E)
    (hk : ∀ a, Triple (Q a) (k a) R E) : Triple P (m >>= k) R E := by
  intro s hs
  have h := hm s hs
  rw [bind_apply]
  cases hms : m s with
  | ok a s' =>
      rw [hms] at h
      exact hk a s' h
  | error e s' =>
      rw [hms] at h
      exact h

/-- Reading the state: what follows may assume that the value read is the state. -/
theorem get_bind {k : σ → EStateM ε σ β} (hk : ∀ s₀, P s₀ → Triple (fun s => s = s₀) (k s₀) R E) :
    Triple P (MonadState.get >>= k) R E := by
  intro s hs
  rw [get_bind_apply]
  exact hk s hs s rfl

/-- A hypothesis of the precondition can be moved to the context. -/
theorem of_pre {p : Prop} {m : EStateM ε σ α} (h : p → Triple P m Q E) :
    Triple (fun s => p ∧ P s) m Q E := fun s hs => h hs.1 s hs.2

/-- A witness of the precondition can be moved to the context. -/
theorem of_exists {ι : Type} {P : ι → σ → Prop} {m : EStateM ε σ α}
    (h : ∀ i, Triple (P i) m Q E) : Triple (fun s => ∃ i, P i s) m Q E := by
  rintro s ⟨i, hi⟩
  exact h i s hi

/-- What two triples say about a program. -/
theorem and {m : EStateM ε σ α} (h : Triple P m Q E) (h' : Triple P m Q' E') :
    Triple P m (fun a s => Q a s ∧ Q' a s) fun e s => E e s ∧ E' e s := by
  intro s hs
  have hm := h s hs
  have hm' := h' s hs
  cases hms : m s with
  | ok a s' =>
      rw [hms] at hm hm'
      exact ⟨hm, hm'⟩
  | error e s' =>
      rw [hms] at hm hm'
      exact ⟨hm, hm'⟩

/-- A triple whose failures are excluded is total correctness. -/
theorem total {m : EStateM ε σ α} (h : Triple P m Q E) {s : σ} (hs : P s)
    (hne : ∀ e s', m s = .error e s' → ¬ E e s') : ∃ a s', m s = .ok a s' ∧ Q a s' := by
  have hm := h s hs
  cases hms : m s with
  | ok a s' =>
      rw [hms] at hm
      exact ⟨a, s', rfl, hm⟩
  | error e s' =>
      rw [hms] at hm
      exact absurd hm (hne e s' hms)

end Triple

end Hoare
