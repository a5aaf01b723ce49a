/-
**Disk blocks and the words stored in them.**

A block (`library/file/disk.h`) is an array of 512 bytes.  The file system reads the same bytes as
a superblock, as an array of inodes, as a free-list block or as an indirect block: all of these
are arrays of 32-bit block numbers, stored in the little-endian order of the machines this code
runs on.  `Egos.Block.word` and `Egos.Block.setWord` are the two accesses of the union
`treedisk_block` (`library/file/file.h`); the named fields are particular words.

Main definitions:

* `Egos.Block`, `Egos.Block.bytes` — blocks and their bytes;
* `Egos.Block.word`, `Egos.Block.setWord` — their words;
* `Egos.Block.nInodeblocks`, `Egos.Block.freeList` — the fields of the superblock;
* `Egos.Block.inodeRoot`, `Egos.Block.inodeNblocks` — the fields of an inode.

Main results:

* `Egos.Block.word_setWord_self`, `Egos.Block.word_setWord_of_ne` — reading a word back.
-/

import Mathlib.Algebra.Group.Int.Defs
import Mathlib.Algebra.GroupWithZero.Nat
import Mathlib.Data.Fin.Basic
import Mathlib.Data.Fintype.Basic
import Mathlib.Data.List.OfFn
import Mathlib.Logic.Function.Basic
import Mathlib.Tactic.NormNum

set_option autoImplicit false

namespace Egos

-- Shortcuts to Lean's own instances.  As constants they are the same terms in the definitions of
-- all modules, and not proofs that are generated in each of them.
instance neZero_64 : NeZero 64 := inferInstance

instance neZero_128 : NeZero 128 := inferInstance

instance neZero_512 : NeZero 512 := inferInstance

/-- `block_t`, of `BLOCK_SIZE` = 512 bytes: `REFS_PER_BLOCK` = 128 block numbers, or
`INODES_PER_BLOCK` = 64 inodes of two block numbers each. -/
def Block : Type := Fin 512 → UInt8

instance : DecidableEq Block := inferInstanceAs (DecidableEq (Fin 512 → UInt8))

/-- `null_block`: a block filled with null bytes. -/
def nullBlock : Block := fun _ => 0

namespace Block

/-! ### Bytes -/

/-- The bytes of a block. -/
def bytes (b : Block) : List UInt8 := List.ofFn fun k : Fin 512 => b k

@[simp] theorem length_bytes (b : Block) : b.bytes.length = 512 := List.length_ofFn

theorem mem_bytes {b : Block} {c : UInt8} : c ∈ b.bytes ↔ ∃ k, b k = c := List.mem_ofFn

/-! ### Words -/

/-- The `i`-th 32-bit word of a block. -/
def word (b : Block) (i : Fin 128) : ℕ :=
  (b ⟨4 * i, by omega⟩).toNat + 256 * (b ⟨4 * i + 1, by omega⟩).toNat +
    65536 * (b ⟨4 * i + 2, by omega⟩).toNat + 16777216 * (b ⟨4 * i + 3, by omega⟩).toNat

/-- The block with its `i`-th word replaced by the 32-bit number `v`. -/
def setWord (b : Block) (i : Fin 128) (v : ℕ) : Block :=
  fun k => if k.val / 4 = i.val then UInt8.ofNat (v / 256 ^ (k.val % 4)) else b k

theorem word_lt (b : Block) (i : Fin 128) : b.word i < 2 ^ 32 := by
  have h₀ := (b ⟨4 * i, by omega⟩).toNat_lt
  have h₁ := (b ⟨4 * i + 1, by omega⟩).toNat_lt
  have h₂ := (b ⟨4 * i + 2, by omega⟩).toNat_lt
  have h₃ := (b ⟨4 * i + 3, by omega⟩).toNat_lt
  simp only [word]
  omega

@[simp] theorem word_nullBlock (i : Fin 128) : nullBlock.word i = 0 := rfl

/-- A block all of whose words are `0` is null. -/
theorem eq_nullBlock {b : Block} (h : ∀ i, b.word i = 0) : b = nullBlock := by
  funext k
  have hk := h ⟨k.val / 4, by omega⟩
  simp only [word] at hk
  have hbyte : (b k).toNat = 0 := by
    have hmod : k.val % 4 = 0 ∨ k.val % 4 = 1 ∨ k.val % 4 = 2 ∨ k.val % 4 = 3 := by omega
    rcases hmod with h0 | h1 | h2 | h3
    · rw [show k = ⟨4 * (k.val / 4), by omega⟩ from Fin.ext (by simp only; omega)]
      omega
    · rw [show k = ⟨4 * (k.val / 4) + 1, by omega⟩ from Fin.ext (by simp only; omega)]
      omega
    · rw [show k = ⟨4 * (k.val / 4) + 2, by omega⟩ from Fin.ext (by simp only; omega)]
      omega
    · rw [show k = ⟨4 * (k.val / 4) + 3, by omega⟩ from Fin.ext (by simp only; omega)]
      omega
  exact UInt8.toNat_inj.1 hbyte

/-- Byte `j` of the word just written. -/
theorem setWord_apply_self (b : Block) (i : Fin 128) (v j : ℕ) (hj : j < 4)
    (h : 4 * i.val + j < 512) :
    (b.setWord i v ⟨4 * i.val + j, h⟩).toNat = v / 256 ^ j % 256 := by
  have hdiv : (4 * i.val + j) / 4 = i.val := by omega
  have hmod : (4 * i.val + j) % 4 = j := by omega
  simp only [setWord, hdiv, hmod, if_true]
  exact UInt8.toNat_ofNat'

theorem setWord_apply_of_ne (b : Block) {i j : Fin 128} (h : j ≠ i) (v k : ℕ) (hk : k < 4)
    (hlt : 4 * j.val + k < 512) :
    b.setWord i v ⟨4 * j.val + k, hlt⟩ = b ⟨4 * j.val + k, hlt⟩ := by
  have hdiv : (4 * j.val + k) / 4 ≠ i.val := by
    have : j.val ≠ i.val := fun he => h (Fin.ext he)
    omega
  simp only [setWord, if_neg hdiv]

theorem word_setWord_self (b : Block) (i : Fin 128) {v : ℕ} (hv : v < 2 ^ 32) :
    (b.setWord i v).word i = v := by
  have h₀ := setWord_apply_self b i v 0 (by omega) (by omega)
  have h₁ := setWord_apply_self b i v 1 (by omega) (by omega)
  have h₂ := setWord_apply_self b i v 2 (by omega) (by omega)
  have h₃ := setWord_apply_self b i v 3 (by omega) (by omega)
  simp only [add_zero] at h₀
  rw [word, h₀, h₁, h₂, h₃]
  omega

theorem word_setWord_of_ne (b : Block) {i j : Fin 128} (h : j ≠ i) (v : ℕ) :
    (b.setWord i v).word j = b.word j := by
  have h₀ := setWord_apply_of_ne b h v 0 (by omega) (by omega)
  simp only [add_zero] at h₀
  rw [word, word, h₀, setWord_apply_of_ne b h v 1 (by omega),
    setWord_apply_of_ne b h v 2 (by omega), setWord_apply_of_ne b h v 3 (by omega)]

/-- Byte `j` of a word. -/
theorem word_div_mod (b : Block) (i : Fin 128) {j : ℕ} (hj : j < 4) (h : 4 * i.val + j < 512) :
    b.word i / 256 ^ j % 256 = (b ⟨4 * i.val + j, h⟩).toNat := by
  have h₀ := (b ⟨4 * i, by omega⟩).toNat_lt
  have h₁ := (b ⟨4 * i + 1, by omega⟩).toNat_lt
  have h₂ := (b ⟨4 * i + 2, by omega⟩).toNat_lt
  have h₃ := (b ⟨4 * i + 3, by omega⟩).toNat_lt
  rw [word]
  obtain rfl | rfl | rfl | rfl : j = 0 ∨ j = 1 ∨ j = 2 ∨ j = 3 := by omega
  · change _ = (b ⟨4 * i, by omega⟩).toNat
    omega
  all_goals omega

/-- Writing a word back changes nothing. -/
theorem setWord_word (b : Block) (i : Fin 128) : b.setWord i (b.word i) = b := by
  funext k
  by_cases hk : k.val / 4 = i.val
  · have hlt : 4 * i.val + k.val % 4 < 512 := by omega
    have hidx : k = ⟨4 * i.val + k.val % 4, hlt⟩ := Fin.ext (by simp only; omega)
    rw [hidx]
    exact UInt8.toNat_inj.1 ((setWord_apply_self b i _ _ (by omega) hlt).trans
      (word_div_mod b i (by omega) hlt))
  · rw [setWord, if_neg hk]

/-! ### Fields -/

/-- The field `n_inodeblocks` of a superblock. -/
def nInodeblocks (b : Block) : ℕ := b.word 0

/-- The field `free_list` of a superblock. -/
def freeList (b : Block) : ℕ := b.word 1

/-- The word that holds the field `root` of the `k`-th inode of an inode block. -/
def rootIdx (k : Fin 64) : Fin 128 := ⟨2 * k, by omega⟩

/-- The word that holds the field `nblocks` of the `k`-th inode of an inode block. -/
def nblocksIdx (k : Fin 64) : Fin 128 := ⟨2 * k + 1, by omega⟩

/-- The field `inodes[k].root` of an inode block. -/
def inodeRoot (b : Block) (k : Fin 64) : ℕ := b.word (rootIdx k)

/-- The field `inodes[k].nblocks` of an inode block. -/
def inodeNblocks (b : Block) (k : Fin 64) : ℕ := b.word (nblocksIdx k)

theorem rootIdx_ne_nblocksIdx (k l : Fin 64) : rootIdx k ≠ nblocksIdx l := by
  intro h
  have := congrArg Fin.val h
  simp only [rootIdx, nblocksIdx] at this
  omega

theorem rootIdx_inj {k l : Fin 64} (h : rootIdx k = rootIdx l) : k = l := by
  have := congrArg Fin.val h
  simp only [rootIdx] at this
  exact Fin.ext (by omega)

theorem nblocksIdx_inj {k l : Fin 64} (h : nblocksIdx k = nblocksIdx l) : k = l := by
  have := congrArg Fin.val h
  simp only [nblocksIdx] at this
  exact Fin.ext (by omega)

end Block

end Egos
