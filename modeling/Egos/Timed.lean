/-
**Code that waits for a device.**

A driver polls its device until an answer comes, and nothing bounds the number of polls.  Such code
is watched here for a given time, of which every exchange with the device and every turn of a loop
takes one unit: a run that does not end in that time is cut off.  What the code does is then said
for all times that are long enough.  Nothing here refers to a particular driver or device.

Main definitions:

* `Timed.Code`, `Timed.exchange`, `Timed.loopUntil` — the code, and what it is made of;
* `Timed.Takes` — **the code ends**, with a result and a state of the device;
* `Timed.Fails` — the code stops with an error.

Main results:

* `Timed.Takes.bind`, `Timed.Takes.loopUntil_done`, `Timed.Takes.loopUntil_next` — the rules;
* `Timed.Takes.unique`, `Timed.Fails.not_takes` — there is one outcome.
-/

import Mathlib.Data.Nat.Notation
import Mathlib.Logic.Basic

set_option autoImplicit false

namespace Timed

variable {σ α β : Type}

/-- The device, and the time that is left. -/
structure Clocked (σ : Type) where
  state : σ
  clock : ℕ

/-- Why a run does not return. -/
inductive Halt
  | fatal (msg : String)
  /-- The time is over. -/
  | late
  deriving DecidableEq

/-- Code that works on a device. -/
abbrev Code (σ α : Type) : Type := EStateM Halt (Clocked σ) α

/-- An exchange with the device. -/
def exchange (f : σ → α × σ) : Code σ α := fun s =>
  match s.clock with
  | 0 => .error .late s
  | n + 1 => .ok (f s.state).1 ⟨(f s.state).2, n⟩

/-- A unit of time passes. -/
def tick : Code σ Unit := exchange fun s => ((), s)

/-- At most `n` turns of a loop that ends when the result of its body satisfies `p`. -/
def loopTurns (body : Code σ α) (p : α → Bool) : ℕ → Code σ α
  | 0 => throw .late
  | n + 1 => do
      tick
      let a ← body
      if p a then return a else loopTurns body p n

/-- A loop that ends when the result of its body satisfies `p`: as every turn takes time, the clock
bounds the number of turns. -/
def loopUntil (body : Code σ α) (p : α → Bool) : Code σ α := fun s => loopTurns body p s.clock s

/-- **The code ends** with a result and a state of the device, if it has the time. -/
def Takes (m : Code σ α) (s : σ) (a : α) (s' : σ) : Prop :=
  ∃ t, ∀ n, m ⟨s, n + t⟩ = .ok a ⟨s', n⟩

/-- **The code stops** with an error, if it has the time. -/
def Fails (m : Code σ α) (s : σ) : Prop :=
  ∃ t, ∀ n, ∃ msg s', m ⟨s, n + t⟩ = .error (.fatal msg) s'

section Rules

variable {m : Code σ α} {k : α → Code σ β} {s s' s'' : σ} {a a' : α} {b : β} {p : α → Bool}

theorem bind_ok {c c' : Clocked σ} (h : m c = .ok a c') : (m >>= k) c = k a c' := by
  change EStateM.bind m k c = _
  rw [EStateM.bind, h]

theorem bind_error {c c' : Clocked σ} {e : Halt} (h : m c = .error e c') :
    (m >>= k) c = .error e c' := by
  change EStateM.bind m k c = _
  rw [EStateM.bind, h]

theorem Takes.pure (a : α) (s : σ) : Takes (Pure.pure a : Code σ α) s a s := ⟨0, fun _ => rfl⟩

theorem takes_exchange (f : σ → α × σ) (s : σ) : Takes (exchange f) s (f s).1 (f s).2 :=
  ⟨1, fun _ => rfl⟩

/-- Running one piece of code after another. -/
theorem Takes.bind (h : Takes m s a s') (h' : Takes (k a) s' b s'') : Takes (m >>= k) s b s'' := by
  obtain ⟨t, ht⟩ := h
  obtain ⟨t', ht'⟩ := h'
  refine ⟨t' + t, ?_⟩
  intro n
  rw [← Nat.add_assoc, bind_ok (ht _), ht']

/-- There is one outcome. -/
theorem Takes.unique (h : Takes m s a s') (h' : Takes m s a' s'') : a = a' ∧ s' = s'' := by
  obtain ⟨t, ht⟩ := h
  obtain ⟨t', ht'⟩ := h'
  have heq := ht t'
  rw [Nat.add_comm, ht' t] at heq
  injection heq with ha hs
  injection hs with hs _
  exact ⟨ha.symm, hs.symm⟩

theorem Fails.not_takes (h : Fails m s) : ¬ Takes m s a s' := by
  rintro ⟨t', ht'⟩
  obtain ⟨t, ht⟩ := h
  obtain ⟨msg, c, heq⟩ := ht t'
  rw [Nat.add_comm, ht' t] at heq
  exact absurd heq (by simp)

theorem fails_throw (msg : String) (s : σ) : Fails (throw (.fatal msg) : Code σ α) s :=
  ⟨0, fun n => ⟨msg, ⟨s, n⟩, rfl⟩⟩

theorem Fails.bind (h : Fails m s) : Fails (m >>= k) s := by
  obtain ⟨t, ht⟩ := h
  refine ⟨t, ?_⟩
  intro n
  obtain ⟨msg, c, heq⟩ := ht n
  exact ⟨msg, c, bind_error heq⟩

theorem Takes.bind_fails (h : Takes m s a s') (h' : Fails (k a) s') : Fails (m >>= k) s := by
  obtain ⟨t, ht⟩ := h
  obtain ⟨t', ht'⟩ := h'
  refine ⟨t' + t, ?_⟩
  intro n
  obtain ⟨msg, c, heq⟩ := ht' n
  refine ⟨msg, c, ?_⟩
  rw [← Nat.add_assoc, bind_ok (ht _), heq]

/-- A turn of a loop, with the time it takes. -/
theorem loopTurns_succ (n t : ℕ) :
    loopTurns m p (n + 1) ⟨s, t + 1⟩ =
      (m >>= fun a => if p a then Pure.pure a else loopTurns m p n) ⟨s, t⟩ := by
  rw [loopTurns]
  exact bind_ok rfl

/-- More turns than needed do no harm. -/
theorem loopTurns_mono {n n' : ℕ} (hn : n ≤ n') {c c' : Clocked σ}
    (h : loopTurns m p n c = .ok a c') : loopTurns m p n' c = .ok a c' := by
  induction n generalizing n' c with
  | zero => exact nomatch h
  | succ n ih =>
      obtain ⟨n', rfl⟩ : ∃ k, n' = k + 1 := ⟨n' - 1, by omega⟩
      obtain ⟨s, _ | t⟩ := c
      · exact nomatch h
      · rw [loopTurns_succ] at h ⊢
        cases hm : m ⟨s, t⟩ with
        | error e c₁ =>
            rw [bind_error hm] at h
            exact nomatch h
        | ok b c₁ =>
            rw [bind_ok hm] at h ⊢
            by_cases hp : p b
            · rw [if_pos hp] at h ⊢
              exact h
            · rw [if_neg hp] at h ⊢
              exact ih (by omega) h

/-- The last turn of a loop. -/
theorem Takes.loopUntil_done (h : Takes m s a s') (hp : p a = true) :
    Takes (loopUntil m p) s a s' := by
  obtain ⟨t, ht⟩ := h
  refine ⟨t + 1, ?_⟩
  intro n
  change loopTurns m p (n + t + 1) ⟨s, n + t + 1⟩ = _
  rw [loopTurns_succ, bind_ok (ht n), if_pos hp]
  rfl

/-- **A turn of a loop** that goes on. -/
theorem Takes.loopUntil_next (h : Takes m s a s') (hp : p a = false)
    (h' : Takes (loopUntil m p) s' a' s'') : Takes (loopUntil m p) s a' s'' := by
  obtain ⟨t, ht⟩ := h
  obtain ⟨t', ht'⟩ := h'
  refine ⟨t' + t + 1, ?_⟩
  intro n
  change loopTurns m p (n + (t' + t) + 1) ⟨s, n + (t' + t) + 1⟩ = _
  have hrest : loopTurns m p (n + t') ⟨s', n + t'⟩ = .ok a' ⟨s'', n⟩ := ht' n
  rw [loopTurns_succ, ← Nat.add_assoc, bind_ok (ht (n + t')), hp, if_neg Bool.false_ne_true]
  -- The turns that the first one leaves are at least as many as the clock at its end allows.
  exact loopTurns_mono (by omega) hrest

end Rules

end Timed
