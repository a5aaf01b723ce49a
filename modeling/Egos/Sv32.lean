/-
**Address translation with two levels of page tables.**

A virtual address of 32 bits has two page numbers of 10 bits and an offset of 12 bits.  A page table
is a page of 1024 entries; an entry has a physical page number of 22 bits and 10 flags.  An entry
that may be read or executed is a leaf of the tree, any other valid entry points to the next table.

Main definitions:

* `Sv32.decode` — the meaning of an entry;
* `Sv32.walk` — **the translation of an address**, with the flags of its leaf, or a page fault;
* `Sv32.LeafFlags` — the flags of a leaf.

Main results:

* `Sv32.decode_pointer`, `Sv32.decode_leaf` — entries that are built from an address and flags;
* `Sv32.walk_of_zero`, `Sv32.walk_of_leaf`, `Sv32.walk_of_no_leaf` — the ways through a root whose
  entries are pointers;
* `Sv32.shiftLeft_pointer` — the address of a table comes back from the entry that points to it.
-/

import Mathlib.Data.Nat.Bitwise

set_option autoImplicit false

namespace Sv32

/-- The words of the physical memory, by address. -/
abbrev Memory := ℕ → UInt32

/-- The address of an entry of the table at `a`. -/
def slot (a v : ℕ) : ℕ := a + 4 * v

/-- Entries of different tables are at different addresses. -/
theorem slot_ne {a b v w : ℕ} (ha : a % 4096 = 0) (hb : b % 4096 = 0) (hab : a ≠ b)
    (hv : v < 1024) (hw : w < 1024) : slot a v ≠ slot b w := by
  unfold slot
  omega

theorem slot_inj {a v w : ℕ} : slot a v = slot a w ↔ v = w := by
  unfold slot
  omega

/-! ### Entries -/

/-- The page faults. -/
inductive Fault
  | invalid
  /-- An entry that may be written but not read. -/
  | reserved
  | noLeaf
  | misaligned
  deriving DecidableEq, Repr

/-- What an entry says. -/
inductive Pte
  | fault (f : Fault)
  | pointer (table : ℕ)
  | leaf (ppn flags : ℕ)
  deriving DecidableEq, Repr

/-- The meaning of an entry. -/
def decode (e : UInt32) : Pte :=
  let valid := e.toNat.testBit 0
  let r := e.toNat.testBit 1
  let w := e.toNat.testBit 2
  let x := e.toNat.testBit 3
  let ppn := e.toNat / 2 ^ 10
  if !valid then .fault .invalid
  else if !r && w then .fault .reserved
  else if r || x then .leaf ppn (e.toNat % 2 ^ 10)
  else .pointer (ppn * 2 ^ 12)

/-- Flags of a leaf: valid, with a permission, and readable if writable. -/
structure LeafFlags (f : ℕ) : Prop where
  lt : f < 2 ^ 10
  valid : f.testBit 0 = true
  permission : f.testBit 1 = true ∨ f.testBit 2 = true ∨ f.testBit 3 = true
  readable : f.testBit 2 = true → f.testBit 1 = true

theorem decode_zero : decode 0 = .fault .invalid := rfl

/-- The flags of an entry are its last bits. -/
theorem testBit_entry {e : UInt32} {p f k : ℕ} (he : e.toNat = 2 ^ 10 * p + f) (hf : f < 2 ^ 10)
    (hk : k < 10) : e.toNat.testBit k = f.testBit k := by
  rw [he, Nat.testBit_two_pow_mul_add p hf, if_pos hk]

/-- An entry with the flags of a leaf. -/
theorem decode_leaf {e : UInt32} {p f : ℕ} (he : e.toNat = 2 ^ 10 * p + f) (hf : LeafFlags f) :
    decode e = .leaf p f := by
  have hppn : e.toNat / 2 ^ 10 = p := by have := hf.lt; omega
  have hflags : e.toNat % 2 ^ 10 = f := by have := hf.lt; omega
  have hpermission := hf.permission
  have hreadable := hf.readable
  unfold decode
  simp only [testBit_entry he hf.lt (show 0 < 10 by decide), testBit_entry he hf.lt
    (show 1 < 10 by decide), testBit_entry he hf.lt (show 2 < 10 by decide),
    testBit_entry he hf.lt (show 3 < 10 by decide), hppn, hflags, hf.valid]
  cases hr : f.testBit 1 with
  | true => rfl
  | false =>
      -- The leaf is executable.
      have hw : f.testBit 2 = false := by
        cases hw : f.testBit 2 with
        | false => rfl
        | true => exact absurd (hreadable hw) (by rw [hr]; decide)
      have hx : f.testBit 3 = true := by
        rcases hpermission with h | h | h
        · exact absurd h (by rw [hr]; decide)
        · exact absurd h (by rw [hw]; decide)
        · exact h
      rw [hw, hx]
      rfl

/-- An entry that points to a table: only the valid bit is set. -/
theorem decode_pointer {e : UInt32} {p : ℕ} (he : e.toNat = 2 ^ 10 * p + 1) :
    decode e = .pointer (p * 2 ^ 12) := by
  have hppn : e.toNat / 2 ^ 10 = p := by omega
  have hlt : 1 < 2 ^ 10 := by decide
  unfold decode
  simp only [testBit_entry he hlt (show 0 < 10 by decide), testBit_entry he hlt
    (show 1 < 10 by decide), testBit_entry he hlt (show 2 < 10 by decide),
    testBit_entry he hlt (show 3 < 10 by decide), hppn]
  rfl

/-! ### The walk -/

/-- The page number of the first level. -/
def vpn1 (va : UInt32) : ℕ := va.toNat / 2 ^ 22

/-- The page number of the second level. -/
def vpn0 (va : UInt32) : ℕ := va.toNat / 2 ^ 12 % 2 ^ 10

/-- **The translation of an address**: the physical address and the flags of the leaf, or a page
fault.  A leaf in the root is a page of 4 MB, which must be aligned. -/
def walk (m : Memory) (root : ℕ) (va : UInt32) : Except Fault (ℕ × ℕ) :=
  match decode (m (slot root (vpn1 va))) with
  | .fault f => .error f
  | .leaf ppn flags =>
      if ppn % 2 ^ 10 = 0 then .ok (ppn * 2 ^ 12 + va.toNat % 2 ^ 22, flags)
      else .error .misaligned
  | .pointer table =>
      match decode (m (slot table (vpn0 va))) with
      | .fault f => .error f
      | .leaf ppn flags => .ok (ppn * 2 ^ 12 + va.toNat % 2 ^ 12, flags)
      | .pointer _ => .error .noLeaf

section

variable {m : Memory} {root table : ℕ} {va : UInt32}

/-- There is no table for the address. -/
theorem walk_of_zero (h : m (slot root (vpn1 va)) = 0) : walk m root va = .error .invalid := by
  rw [walk, h, decode_zero]

/-- The table of the second level has a leaf for the address. -/
theorem walk_of_leaf {p f : ℕ} (hroot : decode (m (slot root (vpn1 va))) = .pointer table)
    (hleaf : decode (m (slot table (vpn0 va))) = .leaf p f) :
    walk m root va = .ok (p * 2 ^ 12 + va.toNat % 2 ^ 12, f) := by
  simp only [walk, hroot, hleaf]

/-- The table of the second level has no entry for the address. -/
theorem walk_of_no_leaf (hroot : decode (m (slot root (vpn1 va))) = .pointer table)
    (hleaf : m (slot table (vpn0 va)) = 0) : walk m root va = .error .invalid := by
  simp only [walk, hroot, hleaf, decode_zero]

end

/-! ### Aligned addresses -/

/-- The address of a page in the form of an entry, with flags. -/
theorem toNat_shiftRight_or {a flag : UInt32} (ha : a.toNat % 2 ^ 12 = 0)
    (hflag : flag.toNat < 2 ^ 10) :
    (a >>> 2 ||| flag).toNat = 2 ^ 10 * (a.toNat / 2 ^ 12) + flag.toNat := by
  have hshift : a.toNat >>> 2 = 2 ^ 10 * (a.toNat / 2 ^ 12) := by
    rw [Nat.shiftRight_eq_div_pow]
    omega
  rw [UInt32.toNat_or, UInt32.toNat_shiftRight, Nat.two_pow_add_eq_or_of_lt hflag]
  exact congrArg (· ||| flag.toNat) hshift

/-- The mask of the page numbers. -/
theorem and_pageMask (n : ℕ) (hn : n < 2 ^ 32) : n &&& 0xFFFFF000 = n / 2 ^ 12 * 2 ^ 12 := by
  have hmask : 0xFFFFF000 = (2 ^ 20 - 1) <<< 12 := by decide
  have hsplit : n / 2 ^ 12 * 2 ^ 12 = (n >>> 12 % 2 ^ 20) <<< 12 := by
    rw [Nat.shiftLeft_eq, Nat.shiftRight_eq_div_pow, Nat.mod_eq_of_lt (by omega)]
  rw [hmask, hsplit]
  refine Nat.eq_of_testBit_eq fun k => ?_
  rw [Nat.testBit_and, Nat.testBit_shiftLeft, Nat.testBit_shiftLeft, Nat.testBit_mod_two_pow,
    Nat.testBit_two_pow_sub_one, Nat.testBit_shiftRight]
  by_cases hk : 12 ≤ k
  · rw [Nat.add_sub_cancel' hk]
    simp [hk, Bool.and_comm]
  · simp [hk]

/-- A page comes back from the entry that points to it. -/
theorem shiftLeft_pointer {a : UInt32} (ha : a.toNat % 2 ^ 12 = 0) :
    (a >>> 2 ||| 0x1) <<< 2 &&& 0xFFFFF000 = a := by
  have hentry : (a >>> 2 ||| 0x1).toNat = 2 ^ 10 * (a.toNat / 2 ^ 12) + 1 :=
    toNat_shiftRight_or ha (by decide)
  have hlt := a.toNat_lt
  have hshift : ((a >>> 2 ||| 0x1) <<< 2).toNat = a.toNat + 4 := by
    rw [UInt32.toNat_shiftLeft, hentry]
    change (2 ^ 10 * (a.toNat / 2 ^ 12) + 1) <<< 2 % 2 ^ 32 = _
    rw [Nat.shiftLeft_eq]
    omega
  refine UInt32.toNat_inj.1 ?_
  rw [UInt32.toNat_and, hshift]
  refine (and_pageMask _ (by omega)).trans ?_
  omega

end Sv32
