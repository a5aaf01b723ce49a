/-
**Runs of a system that may get stuck.**

A system is given by a function that says what a label does to a state, if it can happen there.  A
run is a list of labels; if one of them cannot happen, the run ends before it.

Main definitions:

* `Runs.EveryStep` — a property of all steps of a run.

Main results:

* `Runs.EveryStep.imp` — **the induction rule**: an invariant, kept by the steps that satisfy one
  property, gives another property of all steps;
* `Runs.EveryStep.of_inv`, `Runs.EveryStep.congr_inv` — the rule for an invariant alone, and for two
  systems whose steps agree where it holds;
* `Runs.EveryStep.foldlM` — the state in which a run ends;
* `Runs.foldlM_inv`, `Runs.foldlM_congr_inv` — an invariant of a loop, and two loops that agree
  where it holds;
* `Runs.foldl_done` — the induction rule for a loop over a list;
* `Runs.foldl_range`, `Runs.foldlM_range_some`, `Runs.foldlM_range`, `Runs.foldlM_range_cases` —
  counted loops.
-/

import Mathlib.Data.List.Basic

set_option autoImplicit false

namespace Runs

variable {σ ι : Type} {step : σ → ι → Option σ}

/-- The steps of the run satisfy `P`, which may speak of the states before and after the step. -/
def EveryStep (step : σ → ι → Option σ) (P : σ → ι → σ → Prop) : σ → List ι → Prop
  | _, [] => True
  | s, l :: ls => ∀ s', step s l = some s' → P s l s' ∧ EveryStep step P s' ls

instance EveryStep.decidable {P : σ → ι → σ → Prop} [∀ s l s', Decidable (P s l s')] :
    ∀ (s : σ) (ls : List ι), Decidable (EveryStep step P s ls)
  | _, [] => isTrue trivial
  | s, l :: ls =>
      match h : step s l with
      | none => isTrue fun _ hs => absurd (h.symm.trans hs) (Option.some_ne_none _).symm
      | some s' =>
          have := EveryStep.decidable (P := P) s' ls
          decidable_of_iff (P s l s' ∧ EveryStep step P s' ls)
            ⟨fun hP _ hs => Option.some.inj (h.symm.trans hs) ▸ hP, fun hP => hP s' h⟩

/-- **The induction rule** for runs.  The invariant may speak of the labels that are to come. -/
theorem EveryStep.imp {C P : σ → ι → σ → Prop} {I : σ → List ι → Prop}
    (h : ∀ s l ls s', I s (l :: ls) → step s l = some s' → C s l s' → P s l s' ∧ I s' ls) :
    ∀ (ls : List ι) (s : σ), I s ls → EveryStep step C s ls → EveryStep step P s ls := by
  intro ls
  induction ls with
  | nil => exact fun _ _ _ => trivial
  | cons l ls ih =>
      intro s hs hC s' hstep
      obtain ⟨hCs, hC'⟩ := hC s' hstep
      obtain ⟨hP, hI⟩ := h s l ls s' hs hstep hCs
      exact ⟨hP, ih s' hI hC'⟩

/-- An invariant of all steps gives a property of all steps. -/
theorem EveryStep.of_inv {P : σ → ι → σ → Prop} {I : σ → Prop}
    (h : ∀ s l s', I s → step s l = some s' → P s l s' ∧ I s') :
    ∀ (ls : List ι) (s : σ), I s → EveryStep step P s ls := by
  intro ls
  induction ls with
  | nil => exact fun _ _ => trivial
  | cons l ls ih =>
      intro s hs s' hstep
      obtain ⟨hP, hI⟩ := h s l s' hs hstep
      exact ⟨hP, ih s' hI⟩

/-- A run whose steps are the same as those of another system, as long as an invariant holds. -/
theorem EveryStep.congr_inv {f g : σ → ι → Option σ} {P Q : σ → ι → σ → Prop} {I : σ → Prop}
    (hI : ∀ s i s', I s → f s i = some s' → I s') :
    ∀ (ls : List ι) (s : σ),
      (∀ s, ∀ i ∈ ls, I s → f s i = g s i ∧ ∀ s', P s i s' → Q s i s') → I s →
      EveryStep f P s ls → EveryStep g Q s ls := by
  intro ls
  induction ls with
  | nil => exact fun _ _ _ _ => trivial
  | cons i ls ih =>
      intro s hfg hs hP s' hstep
      obtain ⟨heq, hQ⟩ := hfg s i List.mem_cons_self hs
      rw [← heq] at hstep
      obtain ⟨hPs, hrest⟩ := hP s' hstep
      exact ⟨hQ s' hPs, ih s' (fun s j hj => hfg s j (List.mem_cons_of_mem i hj))
        (hI s i s' hs hstep) hrest⟩

/-- What all steps lead to holds at the end of the run. -/
theorem EveryStep.foldlM {Q : σ → Prop} :
    ∀ (ls : List ι) (s s' : σ), Q s → EveryStep step (fun _ _ s' => Q s') s ls →
      ls.foldlM step s = some s' → Q s' := by
  intro ls
  induction ls with
  | nil =>
      intro s s' hs _ hrun
      obtain rfl : s = s' := Option.some.inj hrun
      exact hs
  | cons l ls ih =>
      intro s s' _ hQ hrun
      rw [List.foldlM_cons] at hrun
      obtain ⟨s₁, hstep, hrest⟩ := Option.bind_eq_some_iff.1 hrun
      obtain ⟨h₁, hQ'⟩ := hQ s₁ hstep
      exact ih s₁ s' h₁ hQ' hrest

/-- An invariant of a loop that has come to its end. -/
theorem foldlM_inv {f : σ → ι → Option σ} {I : σ → Prop}
    (h : ∀ s i s', I s → f s i = some s' → I s') :
    ∀ (l : List ι) (s s' : σ), I s → l.foldlM f s = some s' → I s' := by
  intro l
  induction l with
  | nil =>
      intro s s' hs hrun
      rw [← Option.some.inj hrun]
      exact hs
  | cons i l ih =>
      intro s s' hs hrun
      rw [List.foldlM_cons] at hrun
      obtain ⟨s₁, h₁, hrest⟩ := Option.bind_eq_some_iff.1 hrun
      exact ih s₁ s' (h s i s₁ hs h₁) hrest

/-- A loop whose iterations are the same as those of another loop, as long as an invariant holds. -/
theorem foldlM_congr_inv {f g : σ → ι → Option σ} {I : σ → Prop}
    (h : ∀ s i s', I s → f s i = some s' → I s') :
    ∀ (l : List ι) (s : σ), (∀ s, ∀ i ∈ l, I s → f s i = g s i) → I s →
      l.foldlM f s = l.foldlM g s := by
  intro l
  induction l with
  | nil => exact fun _ _ _ => rfl
  | cons i l ih =>
      intro s hfg hs
      rw [List.foldlM_cons, List.foldlM_cons, ← hfg s i List.mem_cons_self hs]
      cases hf : f s i with
      | none => rfl
      | some s₁ =>
          exact ih s₁ (fun s j hj => hfg s j (List.mem_cons_of_mem i hj)) (h s i s₁ hs hf)

/-- **The induction rule** for a loop over a list.  The invariant may speak of the elements that are
done. -/
theorem foldl_done {f : σ → ι → σ} {I : List ι → σ → Prop}
    (h : ∀ done i s, I done s → I (i :: done) (f s i)) :
    ∀ (l done : List ι) (s : σ), I done s → I (l.reverse ++ done) (l.foldl f s) := by
  intro l
  induction l with
  | nil => exact fun _ _ hs => hs
  | cons i l ih =>
      intro done s hs
      rw [List.foldl_cons, List.reverse_cons, List.append_assoc]
      exact ih (i :: done) (f s i) (h done i s hs)

/-- **A counted loop.** -/
theorem foldl_range {f : σ → ℕ → σ} {I : ℕ → σ → Prop} {s : σ} (h0 : I 0 s) :
    ∀ (n : ℕ), (∀ i s, i < n → I i s → I (i + 1) (f s i)) → I n ((List.range n).foldl f s) := by
  intro n
  induction n with
  | zero => exact fun _ => h0
  | succ n ih =>
      intro h
      rw [List.range_succ, List.foldl_append]
      exact h n _ (by omega) (ih fun i s hi => h i s (by omega))

/-- **A counted loop** that has come to its end. -/
theorem foldlM_range_some {f : σ → ℕ → Option σ} {I : ℕ → σ → Prop} {s : σ} (h0 : I 0 s) :
    ∀ (n : ℕ), (∀ i s s', i < n → I i s → f s i = some s' → I (i + 1) s') →
      ∀ s', (List.range n).foldlM f s = some s' → I n s' := by
  intro n
  induction n with
  | zero =>
      intro _ s' hrun
      obtain rfl := Option.some.inj hrun
      exact h0
  | succ n ih =>
      intro h s' hrun
      rw [List.range_succ, List.foldlM_append] at hrun
      obtain ⟨s₁, hs₁, hlast⟩ := Option.bind_eq_some_iff.1 hrun
      obtain ⟨s₂, hs₂, hnil⟩ := Option.bind_eq_some_iff.1 hlast
      obtain rfl := Option.some.inj hnil
      exact h n s₁ s₂ (by omega) (ih (fun i s s' hi => h i s s' (by omega)) s₁ hs₁) hs₂

/-- **A counted loop** whose invariant lets every iteration happen. -/
theorem foldlM_range {f : σ → ℕ → Option σ} {I : ℕ → σ → Prop} {s : σ} (h0 : I 0 s) :
    ∀ (n : ℕ), (∀ i s, i < n → I i s → ∃ s', f s i = some s' ∧ I (i + 1) s') →
      ∃ s', (List.range n).foldlM f s = some s' ∧ I n s' := by
  intro n
  induction n with
  | zero => exact fun _ => ⟨s, rfl, h0⟩
  | succ n ih =>
      intro h
      obtain ⟨s₁, hs₁, hI₁⟩ := ih fun i s hi => h i s (by omega)
      obtain ⟨s₂, hs₂, hI₂⟩ := h n s₁ (by omega) hI₁
      refine ⟨s₂, ?_, hI₂⟩
      rw [List.range_succ, List.foldlM_append, hs₁]
      change [n].foldlM f s₁ = some s₂
      rw [List.foldlM_cons, hs₂]
      rfl

/-- **A counted loop** whose invariant holds as long as it goes on: it comes to its end, or one of
its iterations does not happen. -/
theorem foldlM_range_cases {f : σ → ℕ → Option σ} {I : ℕ → σ → Prop} {s : σ} (h0 : I 0 s) :
    ∀ (n : ℕ), (∀ i s s', i < n → I i s → f s i = some s' → I (i + 1) s') →
      (∃ s', (List.range n).foldlM f s = some s' ∧ I n s') ∨
        ((List.range n).foldlM f s = none ∧ ∃ i < n, ∃ s', I i s' ∧ f s' i = none) := by
  intro n
  induction n with
  | zero => exact fun _ => Or.inl ⟨s, rfl, h0⟩
  | succ n ih =>
      intro h
      rw [List.range_succ, List.foldlM_append]
      rcases ih fun i s s' hi => h i s s' (by omega) with ⟨s₁, hs₁, hI₁⟩ | ⟨hnone, i, hi, hstuck⟩
      · rw [hs₁]
        change (∃ s', (f s₁ n).bind some = some s' ∧ _) ∨ ((f s₁ n).bind some = none ∧ _)
        rw [Option.bind_fun_some]
        cases hstep : f s₁ n with
        | none => exact Or.inr ⟨rfl, n, by omega, s₁, hI₁, hstep⟩
        | some s₂ => exact Or.inl ⟨s₂, rfl, h n s₁ s₂ (by omega) hI₁ hstep⟩
      · rw [hnone]
        exact Or.inr ⟨rfl, i, by omega, hstuck⟩

section Errors

variable {ε : Type} {f : σ → ℕ → Except ε σ} {s s' : σ} {n : ℕ}

/-- One more iteration of a counted loop that may end with an error. -/
theorem foldlM_range_succ_ok (h : (List.range n).foldlM f s = .ok s') :
    (List.range (n + 1)).foldlM f s = f s' n := by
  rw [List.range_succ, List.foldlM_append, h]
  exact bind_pure (f s' n)

end Errors

end Runs
