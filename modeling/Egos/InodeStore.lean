/-
**Inode stores, and stores that behave as an array of blocks.**

An inode store (`library/file/inode.h`) maintains one or more inodes, each representing an array of
blocks, behind four methods that return a negative number upon error.  The disk is an inode store,
and so is a file system built on one of its inodes, which is how file systems can be stacked.

The methods are given here as functions of the state of the store, the pointer `state` of the
source.  A method that stops in `panic` or `FATAL` is a failure of `EStateM`, and carries the state
it leaves behind.

Main definitions:

* `Egos.InodeStore` — the methods;
* `Egos.ArrayStore` — the contract a file system relies on: one inode of the store below is an
  array of `N` blocks;
* `Egos.ArrayStore.HoldsOff` — the array is a given one, except at some block numbers.

Main results:

* `Egos.ArrayStore.read_holdsOff`, `Egos.ArrayStore.write_holdsOff` — reading and writing an array.
-/

import Egos.Block
import Egos.Hoare
import Mathlib.Data.Set.Insert

set_option autoImplicit false

namespace Egos

open Function (update update_of_ne update_self)
open Hoare

/-- `inode_store_t`: the methods of an inode store with states in `σ`.  A result `none` of `read` is
a negative return value, upon which the buffer of the caller holds nothing of use. -/
structure InodeStore (σ : Type) where
  /-- The size of an inode, in blocks. -/
  getsize : ℕ → σ → ℤ
  /-- Set the size of an inode. -/
  setsize : ℕ → ℕ → EStateM String σ ℤ
  /-- Read the block of an inode at an offset. -/
  read : ℕ → ℕ → σ → Option Block
  /-- Write the block of an inode at an offset. -/
  write : ℕ → ℕ → Block → EStateM String σ ℤ

/-- The contents of an array of blocks. -/
abbrev Disk : Type := ℕ → Block

/-- **The store behaves as an array of `N` blocks at the inode `ino`**, in every state that
satisfies an invariant of the store: reads and writes below `N` succeed, and a write changes the
block written and no other.  A write may also not return at all, with a panic described by `Fails`,
and then the array is as before; for a disk that never fails, `Fails` is empty. -/
structure ArrayStore {σ : Type} (below : InodeStore σ) (ino N : ℕ) (Fails : String → Prop) where
  /-- The states in which the store works. -/
  Inv : σ → Prop
  /-- The array in a state. -/
  view : σ → Disk
  getsize_eq : ∀ s, Inv s → below.getsize ino s % 2 ^ 32 = N
  read_eq : ∀ s off, Inv s → off < N → below.read ino off s = some (view s off)
  write_spec : ∀ d off b, off < N →
    Triple (fun s => Inv s ∧ view s = d) (below.write ino off b)
      (fun r s => r = 0 ∧ Inv s ∧ view s = update d off b)
      (fun e s => Fails e ∧ Inv s ∧ view s = d)

namespace ArrayStore

variable {σ : Type} {below : InodeStore σ} {ino N : ℕ} {Fails : String → Prop}

/-- The array in the state `s` is `D`, except possibly at the block numbers in `C`. -/
def HoldsOff (A : ArrayStore below ino N Fails) (C : Set ℕ) (D : Disk) (s : σ) : Prop :=
  A.Inv s ∧ ∀ x, x ∉ C → A.view s x = D x

theorem HoldsOff.view_eq {A : ArrayStore below ino N Fails} {D : Disk} {s : σ}
    (h : A.HoldsOff ∅ D s) : A.view s = D := funext fun x => h.2 x (Set.notMem_empty x)

theorem holdsOff_view (A : ArrayStore below ino N Fails) {s : σ} (h : A.Inv s) :
    A.HoldsOff ∅ (A.view s) s := ⟨h, fun _ _ => rfl⟩

theorem HoldsOff.mono {A : ArrayStore below ino N Fails} {C C' : Set ℕ} {D : Disk} {s : σ}
    (h : A.HoldsOff C D s) (hC : C ⊆ C') : A.HoldsOff C' D s :=
  ⟨h.1, fun x hx => h.2 x fun hxC => hx (hC hxC)⟩

/-- What the array holds at a block number that is to be overwritten does not matter. -/
theorem HoldsOff.update {A : ArrayStore below ino N Fails} {C : Set ℕ} {D : Disk} {s : σ}
    (h : A.HoldsOff C D s) (c : ℕ) (b : Block) :
    A.HoldsOff (insert c C) (update D c b) s := by
  refine ⟨h.1, fun x hx => ?_⟩
  rw [Set.mem_insert_iff, not_or] at hx
  rw [update_of_ne hx.1]
  exact h.2 x hx.2

theorem read_holdsOff (A : ArrayStore below ino N Fails) {C : Set ℕ} {D : Disk} {s : σ}
    (h : A.HoldsOff C D s) {off : ℕ} (hoff : off < N) (hC : off ∉ C) :
    below.read ino off s = some (D off) := by
  rw [A.read_eq s off h.1 hoff, h.2 off hC]

/-- **Writing a block**: it is known afterwards, also if it was not before. -/
theorem write_holdsOff (A : ArrayStore below ino N Fails) (C : Set ℕ) (D : Disk) (off : ℕ)
    (b : Block) (hoff : off < N) :
    Triple (A.HoldsOff C D) (below.write ino off b)
      (fun r s => r = 0 ∧ A.HoldsOff (C \ {off}) (update D off b) s)
      (fun e s => Fails e ∧ A.HoldsOff C D s) := by
  intro s hs
  have h := A.write_spec (A.view s) off b hoff s ⟨hs.1, rfl⟩
  cases hw : below.write ino off b s with
  | ok r s' =>
      rw [hw] at h
      obtain ⟨hr, hinv, hview⟩ := h
      refine ⟨hr, hinv, fun x hx => ?_⟩
      rw [hview]
      by_cases hxo : x = off
      · rw [hxo, update_self, update_self]
      · rw [update_of_ne hxo, update_of_ne hxo]
        exact hs.2 x fun hxC => hx ⟨hxC, hxo⟩
  | error e s' =>
      rw [hw] at h
      obtain ⟨he, hinv, hview⟩ := h
      exact ⟨he, hinv, fun x hx => by rw [hview]; exact hs.2 x hx⟩

end ArrayStore

end Egos
