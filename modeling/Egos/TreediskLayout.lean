/-
**The forest of a treedisk file system.**

The blocks of a file system are linked by block numbers: the superblock refers to the free list, an
inode to the root of its tree, an indirect block and a free-list block to further blocks.  This is a
forest in the sense of `Egos/PointerForest.lean`, with one root for the free list and one for each
inode, and this module fixes which of its positions count: in the tree of an inode the paths no
longer than the height of the tree, on the free list the blocks of the list and the references they
hold.

Main definitions:

* `Egos.Root`, `Egos.slots`, `Egos.Position` — the roots, where the references are stored, and the
  positions that count;
* `Egos.dataAt` — the data block of an inode at an offset;
* `Egos.Wf` — the well-formed disks: **every block other than the superblock and the inode blocks
  stands at exactly one position**, apart from those that have been taken from the free list and
  not yet been linked;
* `Egos.SameData` — two disks store the same files.

Main results:

* `Egos.lt_pow_levels`, `Egos.pow_le_of_lt_levels` — the loops for the number of levels compute the
  least height that has room for an offset;
* `Egos.readWalk_eq` — the walk of `treedisk_read` reads the block at `Egos.dataAt`;
* `Egos.tree_addressing_sound` — **the tree is addressed soundly**, for every size.
-/

import Egos.Treedisk
import Egos.PointerForest
import Egos.FixedDigits

set_option autoImplicit false

namespace Egos

open Function (update update_of_ne)
open PointerForest FixedDigits

/-! ### The number of levels -/

/-- Shifting a 32-bit number by a multiple of `log_rpb` divides it by a power of
`REFS_PER_BLOCK`. -/
theorem logShiftR_eq {x : ℕ} (hx : x < 2 ^ 32) (m : ℕ) :
    logShiftR x (m * logRpb) = x / 128 ^ m := by
  have hpow : 2 ^ (m * 7) = 128 ^ m := by
    rw [Nat.mul_comm, Nat.pow_mul]
  rw [logShiftR, logRpb_eq]
  by_cases h : m * 7 ≥ 32
  · have hlt : x < 128 ^ m := by
      rw [← hpow]
      exact lt_of_lt_of_le hx (Nat.pow_le_pow_right (by omega) h)
    rw [if_pos h, Nat.div_eq_of_lt hlt]
  · rw [if_neg h, Nat.shiftRight_eq_div_pow, hpow]

/-- The loop stops at the first number of levels at which the shift gives `0`. -/
theorem levelLoop_spec {x : ℕ} (hx : x < 2 ^ 32) :
    ∀ fuel n, 5 ≤ n + fuel → (∀ m < n, 128 ^ m ≤ x) →
      x < 128 ^ levelLoop x n fuel ∧ ∀ m < levelLoop x n fuel, 128 ^ m ≤ x := by
  intro fuel
  induction fuel with
  | zero =>
      intro n hn hle
      refine ⟨?_, hle⟩
      calc x < 2 ^ 32 := hx
        _ ≤ 128 ^ 5 := by norm_num
        _ ≤ 128 ^ n := Nat.pow_le_pow_right (by omega) (by omega)
  | succ fuel ih =>
      intro n hn hle
      rw [levelLoop, logShiftR_eq hx]
      by_cases h : x / 128 ^ n ≠ 0
      · rw [if_pos h]
        refine ih (n + 1) (by omega) fun m hm => ?_
        rcases Nat.lt_succ_iff_lt_or_eq.1 hm with hlt | rfl
        · exact hle m hlt
        · by_contra hlt
          exact h (Nat.div_eq_of_lt (by omega))
      · rw [if_neg h]
        refine ⟨?_, hle⟩
        have h0 : x / 128 ^ n = 0 := by omega
        exact Nat.lt_of_div_eq_zero (by positivity) h0

/-- The offsets up to `x` fit in a tree of `levels x` levels. -/
theorem lt_pow_levels {x : ℕ} (hx : x < 2 ^ 32) : x < 128 ^ levels x :=
  (levelLoop_spec hx 32 0 (by omega) (by simp)).1

/-- No smaller number of levels has room for the offset `x`. -/
theorem pow_le_of_lt_levels {x m : ℕ} (hx : x < 2 ^ 32) (hm : m < levels x) : 128 ^ m ≤ x :=
  (levelLoop_spec hx 32 0 (by omega) (by simp)).2 m hm

theorem levels_mono {x y : ℕ} (hxy : x ≤ y) (hy : y < 2 ^ 32) : levels x ≤ levels y := by
  by_contra h
  have h₁ := pow_le_of_lt_levels (lt_of_le_of_lt hxy hy) (Nat.lt_of_not_le h)
  have h₂ := lt_pow_levels hy
  omega

/-- The offsets of a file fit in its tree. -/
theorem lt_pow_nlevels {nblocks off : ℕ} (hn : nblocks < 2 ^ 32) (h : off < nblocks) :
    off < 128 ^ nlevels nblocks := by
  rw [nlevels, if_pos (by omega)]
  have := lt_pow_levels (x := nblocks - 1) (by omega)
  omega

/-- The path walked by `treedisk_read` and `treedisk_write` is made of the digits of the offset. -/
theorem digits_eq_refIndex {off : ℕ} (hoff : off < 2 ^ 32) (n : ℕ) :
    digits 128 (n + 1) off = refIndex off n :: digits 128 n off := by
  rw [digits_succ, refIndex, logShiftR_eq hoff]

/-- **The loop ends** when it has had five iterations at most: the shift gives `0` then. -/
theorem levelLoop_ends {x : ℕ} (hx : x < 2 ^ 32) {fuel : ℕ} (hfuel : 5 ≤ fuel) :
    levelLoop x 0 fuel = levels x ∧ levels x ≤ 5 ∧ logShiftR x (levels x * logRpb) = 0 := by
  obtain ⟨hlt, hle⟩ := levelLoop_spec hx fuel 0 (by omega) (by omega)
  have hlevels := lt_pow_levels hx
  refine ⟨?_, ?_, ?_⟩
  · -- both are the least number of levels
    rcases Nat.lt_trichotomy (levelLoop x 0 fuel) (levels x) with h | h | h
    · have := pow_le_of_lt_levels hx h
      omega
    · exact h
    · have := hle _ h
      omega
  · by_contra h
    have := pow_le_of_lt_levels (m := 5) hx (by omega)
    omega
  · rw [logShiftR_eq hx, Nat.div_eq_of_lt hlevels]

/-- **The number of levels** is the least one that has room for the blocks. -/
theorem nlevels_isLeast {nblocks : ℕ} (hpos : 1 ≤ nblocks) (hlt : nblocks < 2 ^ 32) :
    nblocks ≤ 128 ^ nlevels nblocks ∧ ∀ L, nblocks ≤ 128 ^ L → nlevels nblocks ≤ L := by
  rw [nlevels, if_pos (by omega)]
  refine ⟨?_, ?_⟩
  · have := lt_pow_levels (x := nblocks - 1) (by omega)
    omega
  · intro L hL
    by_contra h
    have := pow_le_of_lt_levels (x := nblocks - 1) (m := L) (by omega) (by omega)
    omega

/-- The indices with which `treedisk_read` and `treedisk_write` walk down a tree of `L` levels. -/
def indices (L offset : ℕ) : List ℕ :=
  (List.range L).reverse.map fun k => logShiftR offset (k * logRpb) % 128

theorem indices_eq_digits {offset : ℕ} (hoff : offset < 2 ^ 32) (L : ℕ) :
    indices L offset = (digits 128 L offset).map Fin.val := by
  induction L with
  | zero => rfl
  | succ L ih =>
      rw [digits_eq_refIndex hoff, List.map_cons, ← ih, indices, indices, List.range_succ,
        List.reverse_append]
      rfl

/-- Different offsets have different indices. -/
theorem indices_inj {L x y : ℕ} (hx : x < 2 ^ 32) (hy : y < 2 ^ 32) (hxL : x < 128 ^ L)
    (hyL : y < 128 ^ L) (h : indices L x = indices L y) : x = y := by
  rw [indices_eq_digits hx, indices_eq_digits hy] at h
  exact digits_inj hxL hyL ((List.map_inj_right fun _ _ hij => Fin.ext hij).1 h)

/-- A higher tree has zeros in front of the indices. -/
theorem indices_add {L x : ℕ} (hx : x < 2 ^ 32) (hxL : x < 128 ^ L) (k : ℕ) :
    indices (k + L) x = List.replicate k 0 ++ indices L x := by
  rw [indices_eq_digits hx, indices_eq_digits hx]
  induction k with
  | zero => rw [Nat.zero_add, List.replicate_zero, List.nil_append]
  | succ k ih =>
      have hlt : x < 128 ^ (k + L) :=
        lt_of_lt_of_le hxL (Nat.pow_le_pow_right (by decide) (by omega))
      rw [Nat.add_right_comm, digits_succ_of_lt hlt, List.map_cons, ih, List.replicate_succ]
      rfl

/-! ### Positions -/

/-- The roots of the forest: the free list, and the inodes. -/
inductive Root where
  | free
  | inode (ino : ℕ)
  deriving DecidableEq

/-- The references stored on a disk. -/
def slots (d : Disk) : Slot Root (Fin 128) ℕ → ℕ
  | .root .free => (d 0).freeList
  | .root (.inode ino) => (d (1 + ino / 64)).inodeRoot (Fin.ofNat 64 ino)
  | .ref b i => (d b).word i

@[simp] theorem slots_free (d : Disk) : slots d (.root .free) = (d 0).freeList := rfl

@[simp] theorem slots_inode (d : Disk) (ino : ℕ) :
    slots d (.root (.inode ino)) = (d (1 + ino / 64)).inodeRoot (Fin.ofNat 64 ino) := rfl

@[simp] theorem slots_ref (d : Disk) (b : ℕ) (i : Fin 128) :
    slots d (.ref b i) = (d b).word i := rfl

/-- The positions that count, when there are `n` inode blocks and the tree of the inode `ino` has
height `h ino`.  A reference of a free-list block other than its first one leads to a free block,
whose contents mean nothing. -/
def Position (n : ℕ) (h : ℕ → ℕ) : Root → List (Fin 128) → Prop
  | .free, p => ∀ i ∈ p.dropLast, i = 0
  | .inode ino, p => ino < 64 * n ∧ p.length ≤ h ino

theorem position_closed (n : ℕ) (h : ℕ → ℕ) (r : Root) (p : List (Fin 128)) (i : Fin 128)
    (hv : Position n h r (p ++ [i])) : Position n h r p := by
  cases r with
  | free =>
      intro j hj
      refine hv j ?_
      rw [List.dropLast_concat]
      exact List.dropLast_subset p hj
  | inode ino =>
      refine ⟨hv.1, ?_⟩
      have := hv.2
      simp only [List.length_append, List.length_singleton] at this
      omega

theorem position_inode {n ino : ℕ} {h : ℕ → ℕ} {p : List (Fin 128)} (hino : ino < 64 * n)
    (hp : p.length ≤ h ino) : Position n h (.inode ino) p := ⟨hino, hp⟩

theorem position_free_nil (n : ℕ) (h : ℕ → ℕ) : Position n h .free [] := by simp [Position]

/-- The positions below the first reference of a free-list block are those of the rest of the list.
-/
theorem position_free_cons (n : ℕ) (h : ℕ → ℕ) (p : List (Fin 128)) :
    Position n h .free (0 :: p) ↔ Position n h .free p := by
  cases p with
  | nil => simp [Position]
  | cons i p => simp [Position]

/-- The other references of a free-list block are ends of paths. -/
theorem position_free_leaf {n : ℕ} {h : ℕ → ℕ} {i : Fin 128} {p : List (Fin 128)} (hi : i ≠ 0)
    (hv : Position n h .free (i :: p)) : p = [] := by
  cases p with
  | nil => rfl
  | cons j p => exact absurd (hv i (by simp)) hi

/-- The number of inode blocks of a file system. -/
def inodeBlocks (d : Disk) : ℕ := (d 0).nInodeblocks

/-- The number of blocks of a file. -/
def fileSize (d : Disk) (ino : ℕ) : ℕ := (d (1 + ino / 64)).inodeNblocks (Fin.ofNat 64 ino)

/-- The heights of the trees of a file system at rest. -/
def heights (d : Disk) (ino : ℕ) : ℕ := nlevels (fileSize d ino)

/-- The blocks a file system hands out. -/
def blocksOf (n N : ℕ) : Set ℕ := {b | n < b ∧ b < N}

/-- **Well-formed disks.**  `h` gives the heights of the trees, which differ from the sizes stored
in the inodes in the middle of a write, and `X` holds the blocks that have been taken from the free
list and are not linked yet. -/
structure Wf (N : ℕ) (d : Disk) (h : ℕ → ℕ) (X : Set ℕ) : Prop where
  /-- There is room for the superblock, the inode blocks and a free block. -/
  room : inodeBlocks d + 2 ≤ N
  /-- Block numbers are 32-bit numbers. -/
  bound : N < 2 ^ 32
  /-- Inode numbers are 32-bit numbers. -/
  inodes : 64 * inodeBlocks d < 2 ^ 32
  /-- Every block stands at exactly one position, or is not linked. -/
  part : Partition (slots d) (Position (inodeBlocks d) h) (blocksOf (inodeBlocks d) N) X

theorem Wf.node_lt {N : ℕ} {d : Disk} {h : ℕ → ℕ} {X : Set ℕ} (hw : Wf N d h X) {r : Root}
    {p : List (Fin 128)} (hv : Position (inodeBlocks d) h r p) (h0 : node (slots d) r p ≠ 0) :
    inodeBlocks d < node (slots d) r p ∧ node (slots d) r p < N := (hw.part.mem hv h0).1

/-! ### Data blocks -/

/-- The data block of the inode `ino` at the offset `off`, or `0` for a hole. -/
def dataAt (d : Disk) (h : ℕ → ℕ) (ino off : ℕ) : ℕ :=
  if off < 128 ^ h ino then node (slots d) (.inode ino) (digits 128 (h ino) off) else 0

/-- The contents of the inode `ino` at the offset `off`. -/
def contentAt (d : Disk) (h : ℕ → ℕ) (ino off : ℕ) : Block :=
  if dataAt d h ino off = 0 then nullBlock else d (dataAt d h ino off)

theorem position_digits {n ino : ℕ} {h : ℕ → ℕ} (hino : ino < 64 * n) (off : ℕ) :
    Position n h (.inode ino) (digits 128 (h ino) off) := position_inode hino (by simp)

/-- Two disks, with their heights, store the same data at the same blocks. -/
structure SameData (d : Disk) (h : ℕ → ℕ) (d' : Disk) (h' : ℕ → ℕ) : Prop where
  blocks : inodeBlocks d' = inodeBlocks d
  size : ∀ ino, ino < 64 * inodeBlocks d → fileSize d' ino = fileSize d ino
  data : ∀ ino off, ino < 64 * inodeBlocks d → dataAt d' h' ino off = dataAt d h ino off
  keep : ∀ ino off, ino < 64 * inodeBlocks d → dataAt d h ino off ≠ 0 →
    d' (dataAt d h ino off) = d (dataAt d h ino off)

theorem SameData.refl (d : Disk) (h : ℕ → ℕ) : SameData d h d h :=
  ⟨rfl, fun _ _ => rfl, fun _ _ _ => rfl, fun _ _ _ _ => rfl⟩

theorem SameData.trans {d₁ d₂ d₃ : Disk} {h₁ h₂ h₃ : ℕ → ℕ} (h : SameData d₁ h₁ d₂ h₂)
    (h' : SameData d₂ h₂ d₃ h₃) : SameData d₁ h₁ d₃ h₃ := by
  have hb := h.blocks
  refine ⟨h'.blocks.trans hb, ?_, ?_, ?_⟩
  · intro ino hino
    rw [h'.size ino (by rw [hb]; exact hino), h.size ino hino]
  · intro ino off hino
    rw [h'.data ino off (by rw [hb]; exact hino), h.data ino off hino]
  · intro ino off hino h0
    have hd := h.data ino off hino
    have hk := h'.keep ino off (by rw [hb]; exact hino) (by rw [hd]; exact h0)
    rw [hd] at hk
    rw [hk, h.keep ino off hino h0]

/-- Same data, same contents. -/
theorem SameData.content {d d' : Disk} {h h' : ℕ → ℕ} (hs : SameData d h d' h') {ino : ℕ} (off : ℕ)
    (hino : ino < 64 * inodeBlocks d) : contentAt d' h' ino off = contentAt d h ino off := by
  rw [contentAt, contentAt, hs.data ino off hino]
  by_cases h0 : dataAt d h ino off = 0
  · rw [if_pos h0, if_pos h0]
  · rw [if_neg h0, if_neg h0, hs.keep ino off hino h0]

/-- Disks with the same nodes in the trees, and the same blocks at the bottom level, store the same
data. -/
theorem SameData.of_nodes {d d' : Disk} {h : ℕ → ℕ} (hb : inodeBlocks d' = inodeBlocks d)
    (hsize : ∀ ino, ino < 64 * inodeBlocks d → fileSize d' ino = fileSize d ino)
    (hnode : ∀ ino p, Position (inodeBlocks d) h (.inode ino) p →
      node (slots d') (.inode ino) p = node (slots d) (.inode ino) p)
    (hkeep : ∀ ino p, Position (inodeBlocks d) h (.inode ino) p → p.length = h ino →
      node (slots d) (.inode ino) p ≠ 0 →
      d' (node (slots d) (.inode ino) p) = d (node (slots d) (.inode ino) p)) :
    SameData d h d' h := by
  refine ⟨hb, hsize, ?_, ?_⟩
  · intro ino off hino
    rw [dataAt, dataAt, hnode ino _ (position_digits hino off)]
  · intro ino off hino h0
    rw [dataAt] at h0 ⊢
    by_cases hlt : off < 128 ^ h ino
    · rw [if_pos hlt] at h0 ⊢
      exact hkeep ino _ (position_digits hino off) (length_digits _ _) h0
    · rw [if_neg hlt] at h0
      exact absurd rfl h0

/-! ### Writing a block that can be handed out -/

theorem inodeBlocks_update {d : Disk} {c : ℕ} (hc : c ≠ 0) (b : Block) :
    inodeBlocks (update d c b) = inodeBlocks d := by
  rw [inodeBlocks, inodeBlocks, update_of_ne (Ne.symm hc)]

theorem fileSize_update {d : Disk} {c ino : ℕ} (hc : inodeBlocks d < c) (b : Block)
    (hino : ino < 64 * inodeBlocks d) : fileSize (update d c b) ino = fileSize d ino := by
  rw [fileSize, fileSize, update_of_ne (by omega)]

/-- The roots are not stored in the blocks that are handed out. -/
theorem slots_update_root {d : Disk} {c : ℕ} {h : ℕ → ℕ} (hc : inodeBlocks d < c) (b : Block)
    {r : Root} (hr : Position (inodeBlocks d) h r []) :
    slots (update d c b) (.root r) = slots d (.root r) := by
  cases r with
  | free => rw [slots_free, slots_free, update_of_ne (by omega)]
  | inode ino =>
      have hino : ino < 64 * inodeBlocks d := hr.1
      rw [slots_inode, slots_inode, update_of_ne (by omega)]

theorem slots_update_ref {d : Disk} {c x : ℕ} (hx : x ≠ c) (b : Block) (i : Fin 128) :
    slots (update d c b) (.ref x i) = slots d (.ref x i) := by
  rw [slots_ref, slots_ref, update_of_ne hx]

/-! ### Reading -/

section Read

variable {σ : Type} {below : InodeStore σ} {belowIno N : ℕ} {Fails : String → Prop}
  {A : ArrayStore below belowIno N Fails} {d : Disk} {h : ℕ → ℕ} {X : Set ℕ} {s : σ}

/-- The superblock and the inode blocks are below `N`. -/
theorem Wf.inode_lt (hw : Wf N d h X) {ino : ℕ} (hino : ino < 64 * inodeBlocks d) :
    1 + ino / 64 < N := by
  have := hw.room
  omega

/-- **The snapshot of an inode**: it exists exactly for the inode numbers in range, and only the
superblock and the inode block are read. -/
theorem treediskGetSnapshot_off {C : Set ℕ} (hw : Wf N d h X) (hs : A.HoldsOff C d s)
    (hC : ∀ x, x ≤ inodeBlocks d → x ∉ C) (ino : ℕ) :
    treediskGetSnapshot ⟨below, belowIno⟩ ino s =
      if ino < 64 * inodeBlocks d then
        some ⟨d 0, d (1 + ino / 64), 1 + ino / 64, Fin.ofNat 64 ino⟩
      else none := by
  have hroom := hw.room
  have hinodes := hw.inodes
  have hmod : (d 0).nInodeblocks * 64 % 2 ^ 32 = 64 * inodeBlocks d := by
    rw [Nat.mul_comm]
    exact Nat.mod_eq_of_lt hinodes
  rw [treediskGetSnapshot, A.read_holdsOff hs (by omega) (hC 0 (by omega))]
  simp only [hmod, ge_iff_le]
  by_cases hino : ino < 64 * inodeBlocks d
  · rw [if_neg (by omega), if_pos hino, A.read_holdsOff hs (hw.inode_lt hino) (hC _ (by omega))]
  · rw [if_pos (by omega), if_neg hino]

theorem treediskGetSnapshot_eq (hw : Wf N d h X) (hs : A.HoldsOff ∅ d s) (ino : ℕ) :
    treediskGetSnapshot ⟨below, belowIno⟩ ino s =
      if ino < 64 * inodeBlocks d then
        some ⟨d 0, d (1 + ino / 64), 1 + ino / 64, Fin.ofNat 64 ino⟩
      else none := treediskGetSnapshot_off hw hs (fun _ _ => Set.notMem_empty _) ino

/-- **The walk of `treedisk_read`** from a position with `n` levels below it ends at the node of the
bottom level. -/
theorem readWalk_eq (hw : Wf N d h X) (hs : A.HoldsOff ∅ d s) {ino off : ℕ}
    (hino : ino < 64 * inodeBlocks d) (hoff : off < 2 ^ 32) :
    ∀ n p, p.length + n = h ino →
      readWalk ⟨below, belowIno⟩ off s n (node (slots d) (.inode ino) p) =
        let b := node (slots d) (.inode ino) (p ++ digits 128 n off)
        some (if b = 0 then nullBlock else d b) := by
  intro n
  induction n with
  | zero =>
      intro p hp
      rw [readWalk, digits_zero, List.append_nil]
      by_cases h0 : node (slots d) (.inode ino) p = 0
      · rw [if_pos h0]
        simp [h0]
      · have hlt := hw.node_lt (position_inode hino (by omega)) h0
        rw [if_neg h0, A.read_holdsOff hs hlt.2 (Set.notMem_empty _)]
        simp [h0]
  | succ n ih =>
      intro p hp
      rw [readWalk, digits_eq_refIndex hoff]
      by_cases h0 : node (slots d) (.inode ino) p = 0
      · rw [if_pos h0]
        simp [node_append_of_zero h0]
      · have hlt := hw.node_lt (position_inode hino (by omega)) h0
        have hstep : node (slots d) (.inode ino) (p ++ [refIndex off n]) =
            (d (node (slots d) (.inode ino) p)).word (refIndex off n) := by
          rw [node_concat, if_neg h0, slots_ref]
        have := ih (p ++ [refIndex off n]) (by simp; omega)
        rw [hstep, List.append_assoc, List.singleton_append] at this
        rw [if_neg h0, A.read_holdsOff hs hlt.2 (Set.notMem_empty _)]
        exact this

end Read

/-! ### Growing the tree -/

section Growing

variable {σ : Type} (ts : Treedisk σ) (s : σ)

/-- The root has been pushed down `k` times: each new root has the one before under `refs[0]`. -/
inductive Pushed (root : ℕ) : ℕ → ℕ → Prop
  | none : Pushed root 0 root
  | push {k r indir : ℕ} {tib : Block} (h : Pushed root k r) (hne : indir ≠ 0)
      (hread : ts.below.read ts.belowIno indir s = some tib) (hword : tib.word 0 = r) :
      Pushed root (k + 1) indir

/-- The walk from the new root comes to the old one, and goes on as before. -/
theorem readWalk_pushed {root k indir L off : ℕ} (h : Pushed ts s root k indir)
    (hoff : off < 2 ^ 32) (hL : off < 128 ^ L) :
    readWalk ts off s (k + L) indir = readWalk ts off s L root := by
  induction h with
  | none => rw [Nat.zero_add]
  | @push k r indir tib _ hne hread hword ih =>
      have hlt : off < 128 ^ (k + L) :=
        lt_of_lt_of_le hL (Nat.pow_le_pow_right (by decide) (by omega))
      have hindex : refIndex off (k + L) = 0 := by
        rw [refIndex, logShiftR_eq hoff, Nat.div_eq_of_lt hlt]
        rfl
      rw [Nat.add_right_comm, readWalk, if_neg hne, hread]
      dsimp only
      rw [hindex, hword]
      exact ih

/-- **The tree is addressed soundly.**  The loop for the number of levels ends, with the least
number that has room for the blocks, which is at most 5; different offsets have different indices;
and when the tree grows, the indices of an offset get zeros in front, so that the walk from the new
root comes to what it came to from the old one. -/
theorem tree_addressing_sound :
    (∀ nblocks, 1 ≤ nblocks → nblocks < 2 ^ 32 →
      (∀ fuel ≥ 5, levelLoop (nblocks - 1) 0 fuel = nlevels nblocks) ∧
      logShiftR (nblocks - 1) (nlevels nblocks * logRpb) = 0 ∧
      nblocks ≤ 128 ^ nlevels nblocks ∧ (∀ L, nblocks ≤ 128 ^ L → nlevels nblocks ≤ L) ∧
      nlevels nblocks ≤ 5) ∧
    (∀ L ≤ 5, ∀ x y, x < 2 ^ 32 → y < 2 ^ 32 → x < 128 ^ L → y < 128 ^ L → x ≠ y →
      indices L x ≠ indices L y) ∧
    ∀ L L', L < L' → ∀ x, x < 2 ^ 32 → x < 128 ^ L →
      indices L' x = List.replicate (L' - L) 0 ++ indices L x ∧
      ∀ root indir, Pushed ts s root (L' - L) indir →
        readWalk ts x s L' indir = readWalk ts x s L root := by
  refine ⟨?_, ?_, ?_⟩
  · intro nblocks hpos hlt
    obtain ⟨hroom, hleast⟩ := nlevels_isLeast hpos hlt
    have hlevels : nlevels nblocks = levels (nblocks - 1) := if_pos (by omega)
    obtain ⟨-, hfive, hends⟩ := levelLoop_ends (x := nblocks - 1) (by omega) le_rfl
    refine ⟨?_, ?_, hroom, hleast, ?_⟩
    · intro fuel hfuel
      rw [hlevels]
      exact (levelLoop_ends (by omega) hfuel).1
    · rw [hlevels]
      exact hends
    · rw [hlevels]
      exact hfive
  · intro L _ x y hx hy hxL hyL hne heq
    exact hne (indices_inj hx hy hxL hyL heq)
  · intro L L' hlt x hx hxL
    obtain ⟨k, rfl⟩ : ∃ k, L' = k + L := ⟨L' - L, by omega⟩
    rw [Nat.add_sub_cancel]
    refine ⟨indices_add hx hxL k, ?_⟩
    intro root indir hpushed
    exact readWalk_pushed ts s hpushed hx hxL

end Growing

/-- The blocks of a disk, without anything below. -/
def wholeDisk : Treedisk Disk where
  below :=
    { getsize := fun _ _ => 0
      setsize := fun _ _ => return -1
      read := fun _ n d => some (d n)
      write := fun _ n block => do
        modify fun d => update d n block
        return 0 }
  belowIno := 0

/-- The offset 100 in a tree of one level, and after it has grown to two. -/
theorem tree_addressing_sound_hundred :
    indices 2 100 = [0, 100] ∧
      readWalk wholeDisk 100 (fun _ => nullBlock.setWord 0 3) 2 5 =
        readWalk wholeDisk 100 (fun _ => nullBlock.setWord 0 3) 1 3 := by
  obtain ⟨hindices, hwalk⟩ := (tree_addressing_sound wholeDisk fun _ => nullBlock.setWord 0 3).2.2
    1 2 (by decide) 100 (by decide) (by decide)
  have hword : (nullBlock.setWord 0 3).word 0 = 3 := Block.word_setWord_self _ _ (by decide)
  exact ⟨hindices, hwalk 3 5 (.push .none (by decide) rfl hword)⟩

end Egos
