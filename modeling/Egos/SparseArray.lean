/-
**Sparse arrays.**

An array of unbounded capacity that is extended by writing past its end: positions below the size
that were never written hold a fixed default value, and there is nothing to read from the size on.

Main definitions:

* `SparseArray` — a size and the elements, with the default value past the end;
* `SparseArray.read`, `SparseArray.write`, `SparseArray.writes` — the operations, and a run of
  writes.

Main results:

* `SparseArray.read_writes_empty` — **what a read returns after a run of writes**: nothing past the
  largest written position, the last value written at a position, and the default value elsewhere.
-/

import Mathlib.Data.List.Induction
import Mathlib.Data.Nat.Basic
import Mathlib.Logic.Function.Basic
import Mathlib.Order.MinMax

set_option autoImplicit false

universe u

/-- A sparse array with the default value `z`. -/
@[ext]
structure SparseArray (β : Type u) (z : β) where
  size : ℕ
  get : ℕ → β
  /-- There are no elements past the end. -/
  beyond : ∀ i, size ≤ i → get i = z

namespace SparseArray

variable {β : Type u} {z : β}

/-- The array with no elements. -/
def empty : SparseArray β z := ⟨0, fun _ => z, fun _ _ => rfl⟩

/-- The element at a position, if it is in the array. -/
def read (a : SparseArray β z) (i : ℕ) : Option β := if i < a.size then some (a.get i) else none

/-- Store an element, and extend the array if necessary. -/
def write (a : SparseArray β z) (i : ℕ) (x : β) : SparseArray β z where
  size := max a.size (i + 1)
  get := Function.update a.get i x
  beyond := by
    intro j hj
    rw [Function.update_of_ne (by omega)]
    exact a.beyond j (by omega)

@[simp] theorem size_write (a : SparseArray β z) (i : ℕ) (x : β) :
    (a.write i x).size = max a.size (i + 1) := rfl

@[simp] theorem get_write (a : SparseArray β z) (i j : ℕ) (x : β) :
    (a.write i x).get j = if j = i then x else a.get j := Function.update_apply a.get i x j

/-- A run of writes, in the order of the list. -/
def writes (a : SparseArray β z) (ops : List (ℕ × β)) : SparseArray β z :=
  ops.foldl (fun a op => a.write op.1 op.2) a

/-- The value that a run of writes stored last at a position. -/
def lastWritten (i : ℕ) (ops : List (ℕ × β)) : Option β :=
  (ops.reverse.find? fun op => op.1 == i).map Prod.snd

theorem writes_concat (a : SparseArray β z) (ops : List (ℕ × β)) (op : ℕ × β) :
    a.writes (ops ++ [op]) = (a.writes ops).write op.1 op.2 := by
  rw [writes, List.foldl_append]
  rfl

theorem lastWritten_concat (i : ℕ) (ops : List (ℕ × β)) (op : ℕ × β) :
    lastWritten i (ops ++ [op]) = if op.1 = i then some op.2 else lastWritten i ops := by
  rw [lastWritten, List.reverse_append, List.reverse_singleton, List.singleton_append,
    List.find?_cons]
  by_cases h : op.1 = i
  · simp [h]
  · simp [beq_false_of_ne h, h, lastWritten]

/-- A position is below the size of an array built by writes iff a write reached that far. -/
theorem lt_size_writes_empty (i : ℕ) (ops : List (ℕ × β)) :
    i < ((empty : SparseArray β z).writes ops).size ↔ ∃ op ∈ ops, i ≤ op.1 := by
  induction ops using List.reverseRecOn with
  | nil => simp [writes, empty]
  | append_singleton ops op ih =>
      simp only [writes_concat, size_write, lt_max_iff, List.mem_append, List.mem_singleton, ih]
      constructor
      · rintro (⟨op', hmem, hle⟩ | hlt)
        · exact ⟨op', Or.inl hmem, hle⟩
        · exact ⟨op, Or.inr rfl, by omega⟩
      · rintro ⟨op', hmem | rfl, hle⟩
        · exact Or.inl ⟨op', hmem, hle⟩
        · exact Or.inr (by omega)

/-- One more than the largest position that a run of writes reached, and `0` if there is none. -/
def extent (ops : List (ℕ × β)) : ℕ := ops.foldr (fun op n => max (op.1 + 1) n) 0

theorem lt_extent (i : ℕ) (ops : List (ℕ × β)) : i < extent ops ↔ ∃ op ∈ ops, i ≤ op.1 := by
  induction ops with
  | nil => simp [extent]
  | cons op ops ih =>
      have hcons : extent (op :: ops) = max (op.1 + 1) (extent ops) := rfl
      simp only [hcons, lt_max_iff, ih, Nat.lt_succ_iff, List.mem_cons, exists_eq_or_imp]

/-- **The size of an array built by writes.** -/
theorem size_writes_empty (ops : List (ℕ × β)) :
    ((empty : SparseArray β z).writes ops).size = extent ops := by
  refine Nat.le_antisymm ?_ ?_
  · by_contra hlt
    have hlt' := (lt_size_writes_empty (z := z) (extent ops) ops).1 (by omega)
    exact absurd ((lt_extent _ ops).2 hlt') (by omega)
  · by_contra hlt
    have hlt' := (lt_extent ((empty : SparseArray β z).writes ops).size ops).1 (by omega)
    exact absurd ((lt_size_writes_empty _ ops).2 hlt') (by omega)

/-- The elements of an array built by writes are the values written last. -/
theorem get_writes_empty (i : ℕ) (ops : List (ℕ × β)) :
    ((empty : SparseArray β z).writes ops).get i = (lastWritten i ops).getD z := by
  induction ops using List.reverseRecOn with
  | nil => rfl
  | append_singleton ops op ih =>
      rw [writes_concat, lastWritten_concat, get_write]
      by_cases h : op.1 = i
      · rw [if_pos h, if_pos h.symm, Option.getD_some]
      · rw [if_neg h, if_neg (Ne.symm h), ih]

/-- **What a read returns after a run of writes.** -/
theorem read_writes_empty (i : ℕ) (ops : List (ℕ × β)) :
    ((empty : SparseArray β z).writes ops).read i =
      if ∃ op ∈ ops, i ≤ op.1 then some ((lastWritten i ops).getD z) else none := by
  rw [read, get_writes_empty]
  by_cases h : ∃ op ∈ ops, i ≤ op.1
  · rw [if_pos h, if_pos ((lt_size_writes_empty i ops).2 h)]
  · rw [if_neg h, if_neg fun hlt => h ((lt_size_writes_empty i ops).1 hlt)]

end SparseArray
