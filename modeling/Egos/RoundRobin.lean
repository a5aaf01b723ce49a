/-
**Cyclic scans.**

A scan goes around a cycle of slots, starting after the current one, and selects the first slot that
is ready; the current slot itself comes last.  A slot that is ready is never passed over, so that
every selection of another slot is between the current slot and this one, and comes closer to it.

Main definitions:

* `RoundRobin.scan` — the scan;
* `RoundRobin.gap` — the number of slots between two slots;
* `RoundRobin.Passes` — a selection while a slot is ready.

Main results:

* `RoundRobin.Passes.gap_lt` — a selection of another slot makes the gap smaller;
* `RoundRobin.chain_spec` — **until a slot is selected that is ready all the time, no slot is
  selected twice**, and there are at most as many selections as there are slots in the gap.
-/

import Mathlib.Data.Fin.Basic
import Mathlib.Algebra.Group.Fin.Basic
import Mathlib.Data.List.Chain
import Mathlib.Data.List.FinRange
import Mathlib.Tactic.Abel

set_option autoImplicit false

namespace RoundRobin

variable {n : ℕ}

/-- The first slot after `c` that is ready, which may be `c` itself. -/
def scan (ready : Fin (n + 1) → Bool) (c : Fin (n + 1)) : Option (Fin (n + 1)) :=
  ((List.finRange (n + 1)).map fun i => c + (i + 1)).find? ready

/-- The number of slots that a scan from `c` meets before `p`. -/
def gap (c p : Fin (n + 1)) : ℕ := (p - (c + 1)).val

theorem gap_le (c p : Fin (n + 1)) : gap c p ≤ n := Nat.le_of_lt_succ (p - (c + 1)).isLt

/-- While `p` is ready, the scan from `c` selects `j`. -/
def Passes (p c j : Fin (n + 1)) : Prop := ∃ ready, ready p = true ∧ scan ready c = some j

/-- A slot is met after the slots of the gap. -/
theorem add_gap (c p : Fin (n + 1)) : c + ((p - (c + 1)) + 1) = p := by abel

/-- A scan finds something if a slot is ready. -/
theorem exists_scan (ready : Fin (n + 1) → Bool) {p : Fin (n + 1)} (hp : ready p = true)
    (c : Fin (n + 1)) : ∃ j, scan ready c = some j := by
  rw [← Option.isSome_iff_exists, scan, List.find?_isSome]
  refine ⟨p, List.mem_map.2 ⟨p - (c + 1), List.mem_finRange _, add_gap c p⟩, hp⟩

/-- **The scan stops at `p` at the latest**: what it selects is at most as far from `c` as `p` is.
-/
theorem Passes.exists_le {p c j : Fin (n + 1)} (h : Passes p c j) :
    ∃ i ≤ p - (c + 1), j = c + (i + 1) := by
  obtain ⟨ready, hp, hscan⟩ := h
  obtain ⟨-, i, hi, hj, hbefore⟩ := List.find?_eq_some_iff_getElem.1 hscan
  rw [List.length_map, List.length_finRange] at hi
  refine ⟨⟨i, hi⟩, ?_, ?_⟩
  · by_contra hlt
    have hlt : (p - (c + 1)).val < i := not_le.1 hlt
    have hnot := hbefore _ hlt
    rw [List.getElem_map, List.getElem_finRange] at hnot
    have hnot : (!ready (c + ((p - (c + 1)) + 1))) = true := hnot
    rw [add_gap, hp] at hnot
    exact absurd hnot (by decide)
  · rw [← hj, List.getElem_map, List.getElem_finRange]
    rfl

theorem Passes.gap_lt {p c j : Fin (n + 1)} (h : Passes p c j) (hj : j ≠ p) :
    gap j p < gap c p := by
  obtain ⟨i, hi, rfl⟩ := h.exists_le
  have hne : i ≠ p - (c + 1) := by
    rintro rfl
    exact hj (add_gap c p)
  have hlt : i < p - (c + 1) := lt_of_le_of_ne hi hne
  have hsub : p - (c + (i + 1) + 1) = p - (c + 1) - (i + 1) := by abel
  have hsucc : (i + 1).val = i.val + 1 := Fin.val_add_one_of_lt (lt_of_lt_of_le hlt (Fin.le_last _))
  have hle : i + 1 ≤ p - (c + 1) := Fin.le_def.2 (by rw [hsucc]; exact hlt)
  unfold gap
  rw [hsub, Fin.sub_val_of_le hle, hsucc]
  have hlt : i.val < (p - (c + 1)).val := hlt
  omega

/-- **Selections while `p` is ready**, up to the selection of `p`. -/
theorem chain_spec {p : Fin (n + 1)} {js : List (Fin (n + 1))} :
    ∀ {c : Fin (n + 1)}, List.IsChain (Passes p) (c :: js) → p ∉ js →
      js.Nodup ∧ js.length ≤ gap c p ∧ ∀ j ∈ js, gap j p < gap c p := by
  induction js with
  | nil => exact fun _ _ => ⟨List.nodup_nil, Nat.zero_le _, fun j hj => absurd hj List.not_mem_nil⟩
  | cons j js ih =>
      intro c hchain hp
      obtain ⟨hstep, hchain⟩ := List.isChain_cons_cons.1 hchain
      obtain ⟨hj, hp⟩ := List.ne_and_not_mem_of_not_mem_cons hp
      obtain ⟨hnodup, hlen, hgap⟩ := ih hchain hp
      have hlt := hstep.gap_lt hj.symm
      refine ⟨List.nodup_cons.2 ⟨fun hmem => lt_irrefl _ (hgap j hmem), hnodup⟩, ?_, ?_⟩
      · rw [List.length_cons]
        omega
      · intro x hx
        rcases List.mem_cons.1 hx with rfl | hx
        · exact hlt
        · exact (hgap x hx).trans hlt

end RoundRobin
