/-
**Writes that stop on the way.**

`treedisk_write` does not return if the free list is empty, or if a write of the store below fails;
and the power can be cut at any moment.  The blocks written until then stay written.  Out of space,
the disk is still a file system that stores the old data: a new indirect block that has been linked
and not been written is the last block of the free list, which is empty.  In general such a block
holds what was on the disk, and that can be references.

Main definitions:

* `Egos.Kept` — what a write that runs out of space leaves behind;
* `Egos.Blank` — the new indirect blocks of a write hold no references on the way to other blocks of
  the file;
* `Egos.cutStore`, `Egos.afterWrites` — a store that is cut off after some writes, and what a call
  of `treedisk_write` leaves on it.

Main results:

* `Egos.full_keeps_files` — **running out of space does not damage stored data**, if the size of the
  file does not wrap around;
* `Egos.full_loses_file` — otherwise it can;
* `Egos.cut_keeps_files` — **a write that is cut off anywhere leaves the other data readable**, if
  the new indirect blocks are blank;
* `Egos.cut_exposes_reference` — otherwise it may not.
-/

import Egos.TreediskFiles

set_option autoImplicit false

namespace Egos

open Function (update update_apply update_of_ne)
open PointerForest FixedDigits Hoare

/-! ### Out of space -/

/-- The disk `d'` stores the files of `d`, except that the file `ino` may have become longer, with
holes at its end.  The blocks of `X` are lost: they are neither on the free list nor in a file. -/
structure Kept (N : ℕ) (d : Disk) (ino : ℕ) (d' : Disk) (X : Set ℕ) : Prop where
  wf : Wf N d' (heights d') X
  blocks : inodeBlocks d' = inodeBlocks d
  size : ∀ ino', ino' < 64 * inodeBlocks d → ino' ≠ ino → fileSize d' ino' = fileSize d ino'
  grows : fileSize d ino ≤ fileSize d' ino
  content : ∀ ino' off, ino' < 64 * inodeBlocks d → off < fileSize d' ino' →
    contentAt d' (heights d') ino' off = contentAt d (heights d) ino' off

/-- The contents depend on the heights in range only. -/
theorem contentAt_congr {d : Disk} {h h' : ℕ → ℕ} {ino : ℕ} (hh : h' ino = h ino) (off : ℕ) :
    contentAt d h' ino off = contentAt d h ino off := by
  rw [contentAt, contentAt, dataAt, dataAt, hh]

/-- A write that stops before the inode is written loses the blocks it has taken. -/
theorem SameData.kept {N : ℕ} {d d' : Disk} {X : Set ℕ} {ino : ℕ} (hino : ino < 64 * inodeBlocks d)
    (hw : Wf N d' (heights d) X) (hs : SameData d (heights d) d' (heights d)) :
    Kept N d ino d' X := by
  have hheights : ∀ ino', ino' < 64 * inodeBlocks d → heights d' ino' = heights d ino' := by
    intro ino' hino'
    rw [heights, hs.size ino' hino', heights]
  refine ⟨hw.congr_heights (by rw [hs.blocks]; exact hheights), hs.blocks,
    fun ino' hino' _ => hs.size ino' hino', by rw [hs.size ino hino], ?_⟩
  intro ino' off hino' _
  rw [contentAt_congr (hheights ino' hino'), hs.content off hino']

section Grown

variable {N n : ℕ} {d D d' : Disk} {h : ℕ → ℕ} {X : Set ℕ} {ino off : ℕ}

/-- When the inode has been written, the sizes are those for the heights. -/
theorem Grown.heights_eq (hg : Grown N n d ino off D h) (hs : SameData D h d' h) {ino' : ℕ}
    (hino' : ino' < 64 * n) : heights d' ino' = h ino' := by
  rw [heights, hs.size ino' (by rw [hg.blocks]; exact hino'), hg.height ino' hino']

theorem Grown.content_eq (hg : Grown N n d ino off D h) (hs : SameData D h d' h) {ino' : ℕ}
    (hino' : ino' < 64 * n) (off' : ℕ) :
    contentAt d' (heights d') ino' off' = contentAt d (heights d) ino' off' := by
  rw [contentAt_congr (hg.heights_eq hs hino'), hs.content off' (by rw [hg.blocks]; exact hino'),
    hg.content ino' off' hino']

theorem Grown.size_eq (hg : Grown N n d ino off D h) (hs : SameData D h d' h) {ino' : ℕ}
    (hino' : ino' < 64 * n) : fileSize d' ino' =
      if ino' = ino then max (fileSize d ino) (off + 1) else fileSize d ino' := by
  rw [hs.size ino' (by rw [hg.blocks]; exact hino'), hg.size ino' hino']

theorem Grown.wf_heights (hg : Grown N n d ino off D h) (hs : SameData D h d' h)
    (hw : Wf N d' h X) : Wf N d' (heights d') X :=
  hw.congr_heights fun ino' hino' => hg.heights_eq hs (by rwa [hs.blocks, hg.blocks] at hino')

/-- A write that stops in the walk may have made the file longer. -/
theorem Grown.kept (hg : Grown N n d ino off D h) (hn : inodeBlocks d = n) (hino : ino < 64 * n)
    (hw : Wf N d' h X) (hs : SameData D h d' h) : Kept N d ino d' X := by
  subst hn
  refine ⟨hg.wf_heights hs hw, hs.blocks.trans hg.blocks, ?_, ?_,
    fun ino' off' hino' _ => hg.content_eq hs hino' off'⟩
  · intro ino' hino' hne
    rw [hg.size_eq hs hino', if_neg hne]
  · rw [hg.size_eq hs hino, if_pos rfl]
    exact Nat.le_max_left _ _

/-- If the file has not become longer and no block is lost, the files are the old ones. -/
theorem Grown.represents {F : ℕ → SparseArray Block nullBlock} (hg : Grown N n d ino off D h)
    (hr : Represents N n d F) (hw : Wf N d' h ∅) (hs : SameData D h d' h)
    (hlt : off < fileSize d ino) : Represents N n d' F := by
  refine ⟨hg.wf_heights hs hw, hs.blocks.trans hg.blocks, ?_, ?_⟩
  · intro ino' hino'
    rw [hr.size ino' hino', hg.size_eq hs hino']
    by_cases he : ino' = ino
    · rw [if_pos he, he, Nat.max_eq_left hlt]
    · rw [if_neg he]
  · intro ino' off' hino'
    rw [hr.get ino' off' hino', hg.content_eq hs hino' off']

end Grown

/-- Lower trees are well formed as well; the blocks further down are lost. -/
theorem Wf.exists_lower {N : ℕ} {d : Disk} {h : ℕ → ℕ} {X : Set ℕ} (hw : Wf N d h X) (h' : ℕ → ℕ)
    (hle : ∀ ino, ino < 64 * inodeBlocks d → h' ino ≤ h ino) : ∃ Y, Wf N d h' Y := by
  refine ⟨_, hw.room, hw.bound, hw.inodes, hw.part.restrict ?_⟩
  intro r p hv
  cases r with
  | free => exact hv
  | inode ino => exact position_inode hv.1 (le_trans hv.2 (hle ino hv.1))

/-- An empty file that has been given a tree of any height is still empty: the blocks below its root
are lost. -/
theorem SameData.exists_kept {N : ℕ} {d d' : Disk} {ino k : ℕ} (hino : ino < 64 * inodeBlocks d)
    (hempty : fileSize d ino = 0) (hw : Wf N d' (update (heights d) ino k) ∅)
    (hs : SameData d (update (heights d) ino k) d' (update (heights d) ino k)) :
    ∃ X, Kept N d ino d' X := by
  have hheights : ∀ ino', ino' < 64 * inodeBlocks d → heights d' ino' = heights d ino' := by
    intro ino' hino'
    rw [heights, hs.size ino' hino', heights]
  obtain ⟨X, hwX⟩ := hw.exists_lower (heights d') fun ino' hino' => by
    rw [hheights ino' (by rwa [hs.blocks] at hino'), update_apply]
    split
    · rename_i he
      rw [he, heights, hempty]
      exact Nat.zero_le _
    · exact le_rfl
  refine ⟨X, hwX, hs.blocks, fun ino' hino' _ => hs.size ino' hino', by rw [hs.size ino hino], ?_⟩
  intro ino' off hino' hoff
  have hne : ino' ≠ ino := by
    rintro rfl
    rw [hs.size ino' hino', hempty] at hoff
    exact absurd hoff (Nat.not_lt_zero _)
  have hupd : update (heights d) ino k ino' = heights d ino' :=
    update_of_ne hne _ _
  rw [contentAt_congr ((hheights ino' hino').trans hupd.symm), hs.content off hino',
    contentAt_congr hupd]

section Full

variable {σ : Type} {below : InodeStore σ} {belowIno N : ℕ} {Fails : String → Prop}
  {A : ArrayStore below belowIno N Fails}

/-- What can be read from the other inodes is the same. -/
theorem Kept.read_of_ne {d d' : Disk} {X : Set ℕ} {ino : ℕ} {s s' : σ} (hk : Kept N d ino d' X)
    (hw : Wf N d (heights d) ∅) (hs : A.HoldsOff ∅ d s) (hs' : A.HoldsOff ∅ d' s') {ino' : ℕ}
    (hne : ino' ≠ ino) :
    treediskGetsize ⟨below, belowIno⟩ ino' s' = treediskGetsize ⟨below, belowIno⟩ ino' s ∧
      ∀ off, off < 2 ^ 32 → treediskRead ⟨below, belowIno⟩ ino' off s' =
        treediskRead ⟨below, belowIno⟩ ino' off s := by
  rw [treediskGetsize_wf hk.wf hs', treediskGetsize_wf hw hs, hk.blocks]
  by_cases hlt : ino' < 64 * inodeBlocks d
  · refine ⟨by rw [hk.size ino' hlt hne], fun off hoff => ?_⟩
    rw [treediskRead_wf hk.wf hs' ino' off hoff, treediskRead_wf hw hs ino' off hoff, hk.blocks,
      hk.size ino' hlt hne]
    by_cases hin : off < fileSize d ino'
    · rw [hk.content ino' off hlt (by rw [hk.size ino' hlt hne]; exact hin)]
    · rw [if_neg fun h => hin h.2, if_neg fun h => hin h.2]
  · refine ⟨by rw [if_neg hlt, if_neg hlt], fun off hoff => ?_⟩
    rw [treediskRead_wf hk.wf hs' ino' off hoff, treediskRead_wf hw hs ino' off hoff, hk.blocks,
      if_neg fun h => hlt h.1, if_neg fun h => hlt h.1]

/-- Out of space, the files are kept. -/
theorem WriteStops.kept {n : ℕ} {d : Disk} {F : ℕ → SparseArray Block nullBlock} {ino off : ℕ}
    {s : σ} (hr : Represents N n d F) (hino : ino < 64 * n) (hfails : ¬ Fails storeFull)
    (hstop : WriteStops A n d ino off storeFull s) :
    ∃ d' X, Kept N d ino d' X ∧ A.HoldsOff ∅ d' s := by
  rcases hstop with ⟨-, -, V, X, ⟨hw, hsame⟩, hs⟩ | ⟨D, h, hg, hwalk⟩
  · exact ⟨V, X, hsame.kept (by rw [hr.blocks]; exact hino) hw, hs⟩
  · rcases hwalk with ⟨-, D', ⟨hw, hsame⟩, hs⟩ | ⟨he, -⟩
    · exact ⟨D', ∅, hg.kept hr.blocks hino hw hsame, hs⟩
    · exact absurd he hfails

/-- What a write leaves behind when the store is full, at any offset at which the size does not wrap
around, or in an empty file. -/
theorem exists_kept_of_full {n : ℕ} {d : Disk} {F : ℕ → SparseArray Block nullBlock} {ino off : ℕ}
    {blk : Block} {s s' : σ} (hr : Represents N n d F) (hino : ino < 64 * n)
    (hfails : ¬ Fails storeFull) (hoff : off < 2 ^ 32)
    (hwrap : off < 2 ^ 32 - 1 ∨ fileSize d ino = 0) (hs : A.HoldsOff ∅ d s)
    (hfull : treediskWrite ⟨below, belowIno⟩ ino off blk s = .error storeFull s') :
    ∃ d' X, Kept N d ino d' X ∧ A.HoldsOff ∅ d' s' := by
  by_cases hlt : off < 2 ^ 32 - 1
  · have hstop := treediskWrite_spec hr hino hlt blk s hs
    rw [hfull] at hstop
    exact hstop.kept hr hino hfails
  · obtain rfl : off = 2 ^ 32 - 1 := by omega
    have hempty := hwrap.resolve_left hlt
    have hstop := treediskWrite_wrap hr hino hempty blk s hs
    rw [hfull] at hstop
    rcases hstop with ⟨he, -⟩ | ⟨-, d', ⟨hw, hsame⟩, hs'⟩ | ⟨he, -⟩
    · exact absurd he hfails
    · obtain ⟨X, hk⟩ := hsame.exists_kept (by rw [hr.blocks]; exact hino) hempty hw
      exact ⟨d', X, hk, hs'⟩
    · exact absurd he hfails

/-- **Running out of space does not damage stored data**, if the size of the file does not wrap
around: the offset is not the greatest one, or the file is empty.  After the panic of
`treedisk_alloc_block`, the other inodes have the same size and the same blocks; the inode written
has the same blocks up to its old size, and from there on holes or nothing; and no block stands at
two places in the trees and on the free list. -/
theorem full_keeps_files (A : ArrayStore below belowIno N Fails) (hfails : ¬ Fails storeFull)
    {s s' : σ} (h : TreediskReachable A s) {ino off : ℕ} (hoff : off < 2 ^ 32)
    (hwrap : off < 2 ^ 32 - 1 ∨ fileSize (A.view s) ino = 0) {blk : Block}
    (hfull : treediskWrite ⟨below, belowIno⟩ ino off blk s = .error storeFull s') :
    (∀ ino', ino' ≠ ino →
      treediskGetsize ⟨below, belowIno⟩ ino' s' = treediskGetsize ⟨below, belowIno⟩ ino' s ∧
      ∀ off', off' < 2 ^ 32 → treediskRead ⟨below, belowIno⟩ ino' off' s' =
        treediskRead ⟨below, belowIno⟩ ino' off' s) ∧
    (∀ off', off' < fileSize (A.view s) ino → treediskRead ⟨below, belowIno⟩ ino off' s' =
      treediskRead ⟨below, belowIno⟩ ino off' s) ∧
    (∀ off', fileSize (A.view s) ino ≤ off' → off' < 2 ^ 32 →
      treediskRead ⟨below, belowIno⟩ ino off' s' = none ∨
      treediskRead ⟨below, belowIno⟩ ino off' s' = some nullBlock) ∧
    ∀ pl pl' : Place, pl.Valid (A.view s') → pl'.Valid (A.view s') → pl.block (A.view s') ≠ 0 →
      pl.block (A.view s') = pl'.block (A.view s') → pl = pl' := by
  obtain ⟨hinv, n, F, hr⟩ := h.represents
  have hs := A.holdsOff_view hinv
  have hino : ino < 64 * n := by
    by_contra hlt
    rw [treediskWrite_out hr hs (by omega)] at hfull
    exact absurd hfull (by simp)
  obtain ⟨d', X, hk, hs'⟩ := exists_kept_of_full hr hino hfails hoff hwrap hs hfull
  have hread := treediskRead_wf (A := A) hr.wf hs
  have hread' := treediskRead_wf hk.wf hs'
  have hino' : ino < 64 * inodeBlocks (A.view s) := by rw [hr.blocks]; exact hino
  refine ⟨?_, ?_, ?_, ?_⟩
  · exact fun ino' hne => hk.read_of_ne hr.wf hs hs' hne
  · intro off' hlt
    have hgrows := hk.grows
    have hsize := fileSize_lt (A.view s) ino
    rw [hread' ino off' (by omega), hread ino off' (by omega), hk.blocks,
      if_pos ⟨hino', by omega⟩, if_pos ⟨hino', hlt⟩, hk.content ino off' hino' (by omega)]
  · intro off' hle hoff'
    rw [hread' ino off' hoff', hk.blocks]
    split
    · rename_i hin
      right
      rw [hk.content ino off' hino' hin.2, ← hr.get ino off' hino,
        (F ino).beyond off' (by rw [hr.size ino hino]; exact hle)]
    · exact Or.inl rfl
  · intro pl pl' hv hv' h0 heq
    have hwf : Wf N (A.view s') (heights (A.view s')) X := by
      rw [hs'.view_eq]
      exact hk.wf
    exact hwf.place_inj hv hv' h0 heq

/-- A call panics because the store is full, and leaves a state with a property. -/
def panicsFull {α : Type} (r : EStateM.Result String σ α) (p : σ → Bool) : Bool :=
  match r with
  | .ok _ _ => false
  | .error e s => e == storeFull && p s

theorem of_panicsFull {α : Type} {r : EStateM.Result String σ α} {p : σ → Bool}
    (h : panicsFull r p = true) : ∃ s, r = .error storeFull s ∧ p s = true := by
  cases r with
  | ok v s => exact absurd h (by simp [panicsFull])
  | error e s =>
      rw [panicsFull, Bool.and_eq_true, beq_iff_eq] at h
      exact ⟨s, by rw [h.1], h.2⟩

/-- A block that is null but for its first byte. -/
def firstByte (c : UInt8) : Block := fun k => if k = 0 then c else 0

/-- On a RAM disk of four blocks a file of one block is written, which leaves one block free.  A
write to the second block of the file takes it for the indirect block, and panics after the inode
has been written.  A write at the greatest offset of another file, which is empty, takes it for the
root of that file.  After either of them the block can be read. -/
theorem full_keeps_files_ramdisk :
    ∃ s s₁ s₂, TreediskReachable (ramdiskArray (by decide : 4 < 2 ^ 32) 0) s ∧
      treediskRead ⟨ramdisk 4, 0⟩ 0 0 s = some (firstByte 7) ∧
      treediskWrite ⟨ramdisk 4, 0⟩ 0 1 nullBlock s = .error storeFull s₁ ∧
      treediskRead ⟨ramdisk 4, 0⟩ 0 0 s₁ = some (firstByte 7) ∧
      treediskWrite ⟨ramdisk 4, 0⟩ 1 (2 ^ 32 - 1) nullBlock s = .error storeFull s₂ ∧
      treediskRead ⟨ramdisk 4, 0⟩ 0 0 s₂ = some (firstByte 7) := by
  have hrun : returnsZero (treediskCreate (ramdisk 4) 0 1 fun _ => nullBlock) (fun s₀ =>
      returnsZero (treediskWrite ⟨ramdisk 4, 0⟩ 0 0 (firstByte 7) s₀) fun s =>
        decide (treediskRead ⟨ramdisk 4, 0⟩ 0 0 s = some (firstByte 7) ∧ fileSize s 0 = 1 ∧
          fileSize s 1 = 0) &&
        panicsFull (treediskWrite ⟨ramdisk 4, 0⟩ 0 1 nullBlock s) (fun _ => true) &&
        panicsFull (treediskWrite ⟨ramdisk 4, 0⟩ 1 (2 ^ 32 - 1) nullBlock s) fun _ => true) =
          true := by
    decide +kernel
  obtain ⟨s₀, hc, hrun⟩ := of_returnsZero hrun
  obtain ⟨s, hw, hrun⟩ := of_returnsZero hrun
  rw [Bool.and_eq_true, Bool.and_eq_true] at hrun
  obtain ⟨⟨hfacts, hfull₁⟩, hfull₂⟩ := hrun
  obtain ⟨hread, hsize, hempty⟩ := of_decide_eq_true hfacts
  obtain ⟨s₁, hw₁, -⟩ := of_panicsFull hfull₁
  obtain ⟨s₂, hw₂, -⟩ := of_panicsFull hfull₂
  have h : TreediskReachable (ramdiskArray (by decide : 4 < 2 ^ 32) 0) s :=
    .write (.init trivial rfl hc) (by decide) hw
  refine ⟨s, s₁, s₂, h, hread, hw₁, ?_, hw₂, ?_⟩
  · rw [(full_keeps_files (ramdiskArray (by decide : 4 < 2 ^ 32) 0) id h (by decide)
      (Or.inl (by decide)) hw₁).2.1 0 (hsize.symm ▸ Nat.one_pos), hread]
  · rw [((full_keeps_files (ramdiskArray (by decide : 4 < 2 ^ 32) 0) id h (by decide)
      (Or.inr hempty) hw₂).1 0 (by decide)).2 0 (by decide), hread]

/-- **Running out of space can make a file unreadable.**  On the same disk, the block of the file is
null but for its first byte.  A write at the greatest offset stores the size 0 in the inode, takes
the block of the file for an indirect block, links the last free block into it, and panics. -/
theorem full_loses_file :
    ∃ s s', TreediskReachable (ramdiskArray (by decide : 4 < 2 ^ 32) 0) s ∧ fileSize s 0 = 1 ∧
      treediskRead ⟨ramdisk 4, 0⟩ 0 0 s = some (firstByte 7) ∧
      treediskWrite ⟨ramdisk 4, 0⟩ 0 (2 ^ 32 - 1) nullBlock s = .error storeFull s' ∧
      treediskRead ⟨ramdisk 4, 0⟩ 0 0 s' = none := by
  have hrun : returnsZero (treediskCreate (ramdisk 4) 0 1 fun _ => nullBlock) (fun s₀ =>
      returnsZero (treediskWrite ⟨ramdisk 4, 0⟩ 0 0 (firstByte 7) s₀) fun s =>
        decide (fileSize s 0 = 1 ∧
          treediskRead ⟨ramdisk 4, 0⟩ 0 0 s = some (firstByte 7)) &&
        panicsFull (treediskWrite ⟨ramdisk 4, 0⟩ 0 (2 ^ 32 - 1) nullBlock s) fun s' =>
          (treediskRead ⟨ramdisk 4, 0⟩ 0 0 s').isNone) = true := by
    decide +kernel
  obtain ⟨s₀, hc, hrun⟩ := of_returnsZero hrun
  obtain ⟨s, hw, hrun⟩ := of_returnsZero hrun
  rw [Bool.and_eq_true] at hrun
  obtain ⟨hsize, hread⟩ := of_decide_eq_true hrun.1
  obtain ⟨s', hw', hnone⟩ := of_panicsFull hrun.2
  exact ⟨s, s', .write (.init trivial rfl hc) (by decide) hw, hsize, hread, hw',
    Option.isNone_iff_eq_none.1 hnone⟩

end Full

/-! ### Reading around a block that is not written -/

section Unwritten

variable {σ : Type} {below : InodeStore σ} {belowIno N : ℕ} {Fails : String → Prop}
  {A : ArrayStore below belowIno N Fails} {h : ℕ → ℕ} {ino : ℕ} {path : List (Fin 128)} {D : Disk}
  {s : σ} {q : List (Fin 128)} {m : ℕ} {X : Set ℕ}

/-- **The walk of `treedisk_read`** past a block that is not written: it is as if the block were
empty, if the reference on the way is null. -/
theorem readWalk_unwritten (hw : Wf N D h X) (hu : Unwritten A h ino path D s q m)
    (hq : ino < 64 * inodeBlocks D) {ino' off : ℕ} (hino' : ino' < 64 * inodeBlocks D)
    (hoff : off < 2 ^ 32) (hnull : ino' = ino → (∃ r, digits 128 (h ino) off = q ++ r) →
      (A.view s (node (slots D) (.inode ino) q)).word (refIndex off m) = 0) :
    ∀ n p, p.length + n = h ino' → p ++ digits 128 n off = digits 128 (h ino') off →
      readWalk ⟨below, belowIno⟩ off s n (node (slots D) (.inode ino') p) =
        let b := node (slots D) (.inode ino') (digits 128 (h ino') off)
        some (if b = 0 then nullBlock else D b) := by
  intro n
  induction n with
  | zero =>
      intro p hp hpath
      have hlen := hu.length
      rw [digits_zero, List.append_nil] at hpath
      rw [readWalk, hpath]
      by_cases h0 : node (slots D) (.inode ino') (digits 128 (h ino') off) = 0
      · rw [if_pos h0]
        simp [h0]
      · have hv := position_digits (h := h) hino' off
        have hlt := hw.node_lt hv h0
        -- a data block is not an indirect block
        have hC : node (slots D) (.inode ino') (digits 128 (h ino') off) ∉
            ({node (slots D) (.inode ino) q} : Set ℕ) := by
          intro he
          obtain ⟨hr, hd⟩ := hw.part.inj hv (position_inode hq (by omega)) h0 he
          rw [Root.inode.injEq] at hr
          have hl := congrArg List.length hd
          rw [length_digits, hr] at hl
          omega
        rw [if_neg h0, A.read_holdsOff hu.holds hlt.2 hC]
        simp [h0]
  | succ n ih =>
      intro p hp hpath
      have hlen := hu.length
      rw [readWalk]
      by_cases h0 : node (slots D) (.inode ino') p = 0
      · rw [if_pos h0, ← hpath]
        simp [node_append_of_zero h0]
      · have hv : Position (inodeBlocks D) h (.inode ino') p := position_inode hino' (by omega)
        have hlt := hw.node_lt hv h0
        rw [if_neg h0]
        have hstep : node (slots D) (.inode ino') (p ++ [refIndex off n]) =
            (D (node (slots D) (.inode ino') p)).word (refIndex off n) := by
          rw [node_concat, if_neg h0, slots_ref]
        have hpath' : (p ++ [refIndex off n]) ++ digits 128 n off = digits 128 (h ino') off := by
          rw [← hpath, digits_eq_refIndex hoff, List.append_assoc, List.singleton_append]
        by_cases hC : node (slots D) (.inode ino') p = node (slots D) (.inode ino) q
        · -- the walk has come to the block that is not written
          obtain ⟨hr, hpq⟩ := hw.part.inj hv (position_inode hq (by omega)) h0 hC
          rw [Root.inode.injEq] at hr
          subst hr hpq
          obtain rfl : n = m := by omega
          have hread := A.read_eq s _ hu.holds.1 hlt.2
          have hzero : node (slots D) (.inode ino') (digits 128 (h ino') off) = 0 := by
            rw [← hpath']
            refine node_append_of_zero ?_ _
            rw [hstep, hu.null, Block.word_nullBlock]
          rw [hread]
          simp only [hnull rfl ⟨_, hpath.symm⟩, hzero]
          rw [readWalk, if_pos rfl, if_pos trivial]
        · rw [A.read_holdsOff hu.holds hlt.2 hC]
          have := ih (p ++ [refIndex off n]) (by simp; omega) hpath'
          rw [hstep] at this
          exact this

/-- **`treedisk_read`** on a disk with a block that is not written. -/
theorem treediskRead_unwritten (hw : Wf N D h X) (hu : Unwritten A h ino path D s q m)
    (hheights : ∀ ino', ino' < 64 * inodeBlocks D → heights D ino' = h ino')
    (hq : ino < 64 * inodeBlocks D) {ino' off : ℕ} (hino' : ino' < 64 * inodeBlocks D)
    (hlt : off < fileSize D ino') (hnull : ino' = ino → (∃ r, digits 128 (h ino) off = q ++ r) →
      (A.view s (node (slots D) (.inode ino) q)).word (refIndex off m) = 0) :
    treediskRead ⟨below, belowIno⟩ ino' off s = some (contentAt D h ino' off) := by
  have hlen := hu.length
  have hsize := fileSize_lt D ino'
  have hmem := hw.node_lt (position_inode (p := q) hq (by omega)) hu.ne
  have hC : ∀ x, x ≤ inodeBlocks D → x ∉ ({node (slots D) (.inode ino) q} : Set ℕ) := by
    intro x hx he
    rw [Set.mem_singleton_iff] at he
    omega
  rw [treediskRead, treediskGetSnapshot_off hw hu.holds hC, if_pos hino']
  change (if off ≥ fileSize D ino' then none
    else readWalk ⟨below, belowIno⟩ off s (heights D ino') (node (slots D) (.inode ino') [])) = _
  have hpow : off < 128 ^ h ino' := by
    rw [← hheights ino' hino']
    exact lt_pow_nlevels hsize hlt
  rw [if_neg (by omega), hheights ino' hino',
    readWalk_unwritten hw hu hq hino' (by omega) hnull (h ino') [] (by simp) (by simp), contentAt,
    dataAt, if_pos hpow]

end Unwritten

/-! ### Writes that are cut off -/

/-- The contents at the other offsets, when data may have changed at one position. -/
theorem SameExcept.content {d d' : Disk} {h : ℕ → ℕ} {ino off : ℕ} (hoff : off < 128 ^ h ino)
    (hexc : SameExcept h ino (digits 128 (h ino) off) d d') {ino' off' : ℕ}
    (hino' : ino' < 64 * inodeBlocks d) (hne : ¬ (ino' = ino ∧ off' = off)) :
    contentAt d' h ino' off' = contentAt d h ino' off' := by
  rw [contentAt, contentAt, dataAt, dataAt]
  by_cases hlt : off' < 128 ^ h ino'
  · have hpath : ¬ (ino' = ino ∧ digits 128 (h ino') off' = digits 128 (h ino) off) := by
      rintro ⟨rfl, he⟩
      exact hne ⟨rfl, digits_inj hlt hoff he⟩
    obtain ⟨hnode, hkeep⟩ := hexc.nodes ino' _ (position_digits hino' off')
      (length_digits _ _) hpath
    rw [if_pos hlt, if_pos hlt, hnode]
    by_cases h0 : node (slots d) (.inode ino') (digits 128 (h ino') off') = 0
    · rw [if_pos h0, if_pos h0]
    · rw [if_neg h0, if_neg h0, hkeep h0]
  · rw [if_neg hlt, if_neg hlt]
    rfl

/-- **The new indirect blocks of a write are blank.**  With `j` levels below the first hole on the
way to the offset, the write links `j` new indirect blocks, if the inode number is in range.  Each
of them, when it is taken from the free list, holds no reference on the way to another offset of the
file. -/
def Blank (d : Disk) (ino off : ℕ) : Prop :=
  ino < 64 * inodeBlocks d → ∀ k m b, HandedOut d k b →
    k + m + 1 = holeLevels d off (heights d ino) (node (slots d) (.inode ino) []) →
    ∀ off', off' < fileSize d ino → off' ≠ off → off' / 128 ^ (m + 1) = off / 128 ^ (m + 1) →
      b.word (refIndex off' m) = 0

theorem holeLevels_le (d : Disk) (off : ℕ) : ∀ n b, holeLevels d off n b ≤ n := by
  intro n
  induction n with
  | zero =>
      intro b
      unfold holeLevels
      split <;> exact Nat.le_refl _
  | succ n ih =>
      intro b
      by_cases h0 : b = 0
      · rw [h0, holeLevels_zero]
      · rw [holeLevels_succ _ _ _ h0]
        exact Nat.le_succ_of_le (ih _)

/-- Dividing further, equal quotients stay equal. -/
theorem div_pow_eq_of_le {x y k l : ℕ} (hkl : k ≤ l) (h : x / 128 ^ k = y / 128 ^ k) :
    x / 128 ^ l = y / 128 ^ l := by
  obtain ⟨r, rfl⟩ := Nat.exists_eq_add_of_le hkl
  rw [Nat.pow_add, ← Nat.div_div_eq_div_mul, ← Nat.div_div_eq_div_mul, h]

/-- Where the tree has become higher, the new blocks lie past the old end of the file. -/
theorem Grown.null_of_stale {N n : ℕ} {d D : Disk} {h : ℕ → ℕ} {ino off : ℕ}
    (hg : Grown N n d ino off D h) (hoff : off < 2 ^ 32) (hino : ino < 64 * inodeBlocks d)
    (hblank : Blank d ino off) {m : ℕ} {b : Block}
    (hstale : Stale D (holeLevels D off (h ino) (node (slots D) (.inode ino) [])) m b)
    {off' : ℕ} (hlt : off' < fileSize d ino) (hne : off' ≠ off)
    (hdiv : off' / 128 ^ (m + 1) = off / 128 ^ (m + 1)) : b.word (refIndex off' m) = 0 := by
  obtain ⟨k, hout, hkm⟩ := hstale
  rcases hg.holes with ⟨hfree, hholes⟩ | ⟨hlev, hheight, hroot⟩
  · rw [hholes] at hkm
    exact hblank hino k m b (hfree.handedOut hout hg.wf) hkm off' hlt hne hdiv
  · exfalso
    rw [hheight] at hkm
    obtain ⟨l, hl⟩ : ∃ l, levels off = l + 1 := ⟨levels off - 1, by omega⟩
    rw [hl, holeLevels_succ _ _ _ hroot] at hkm
    have hle := holeLevels_le D off l ((D (node (slots D) (.inode ino) [])).word (refIndex off l))
    have hbig := pow_le_of_lt_levels (m := l) hoff (by omega)
    have hpow : off' < 128 ^ heights d ino := lt_pow_nlevels (fileSize_lt d ino) hlt
    have hmono : 128 ^ heights d ino ≤ 128 ^ l := Nat.pow_le_pow_right (by omega) (by omega)
    have heq := div_pow_eq_of_le (show m + 1 ≤ l by omega) hdiv
    rw [Nat.div_eq_of_lt (by omega)] at heq
    have hpos := Nat.div_pos hbig (by positivity)
    omega

section Cut

variable {σ : Type} {below : InodeStore σ} {belowIno N : ℕ} {Fails : String → Prop}
  {A : ArrayStore below belowIno N Fails}

/-- **A write that stops anywhere leaves the other data readable.** -/
theorem WriteStops.read {n : ℕ} {d : Disk} {F : ℕ → SparseArray Block nullBlock} {ino off : ℕ}
    {e : String} {s : σ} (hr : Represents N n d F) (hino : ino < 64 * n) (hoff : off < 2 ^ 32 - 1)
    (hblank : Blank d ino off) (hstop : WriteStops A n d ino off e s) {ino' off' : ℕ}
    (hino' : ino' < 64 * n) (hlt : off' < fileSize d ino') (hne : ¬ (ino' = ino ∧ off' = off)) :
    treediskRead ⟨below, belowIno⟩ ino' off' s = some (contentAt d (heights d) ino' off') := by
  have hkept : ∀ {d' : Disk} {X : Set ℕ}, Kept N d ino d' X → A.HoldsOff ∅ d' s →
      treediskRead ⟨below, belowIno⟩ ino' off' s = some (contentAt d (heights d) ino' off') := by
    intro d' X hk hs
    have hmem : ino' < 64 * inodeBlocks d := by rw [hr.blocks]; exact hino'
    have hsize := fileSize_lt d ino'
    have hle : fileSize d ino' ≤ fileSize d' ino' := by
      by_cases he : ino' = ino
      · rw [he]
        exact hk.grows
      · rw [hk.size ino' hmem he]
    rw [treediskRead_wf hk.wf hs ino' off' (by omega), hk.blocks, if_pos ⟨hmem, by omega⟩,
      hk.content ino' off' hmem (by omega)]
  rcases hstop with ⟨-, -, V, X, ⟨hw, hsame⟩, hs⟩ | ⟨D, h, hg, hwalk⟩
  · exact hkept (hsame.kept (by rw [hr.blocks]; exact hino) hw) hs
  rcases hwalk with ⟨-, D', ⟨hw, hsame⟩, hs⟩ | ⟨-, D', X, ⟨hw, hexc⟩, hs⟩
  · exact hkept (hg.kept hr.blocks hino hw hsame) hs
  have hblocks : inodeBlocks D' = n := hexc.blocks.trans hg.blocks
  have hsizes : ∀ i, i < 64 * n → fileSize D' i = fileSize D i := by
    intro i hi
    exact hexc.size i (by rw [hg.blocks]; exact hi)
  have hheights : ∀ i, i < 64 * n → heights D' i = h i := by
    intro i hi
    rw [heights, hsizes i hi, hg.height i hi]
  have hsize' : off' < fileSize D' ino' := by
    rw [hsizes ino' hino', hg.size ino' hino']
    split
    · rename_i he
      rw [he] at hlt
      exact lt_of_lt_of_le hlt (Nat.le_max_left _ _)
    · exact hlt
  have hoffh : off < 128 ^ h ino := by
    rw [hg.height ino hino]
    refine lt_pow_nlevels (fileSize_lt D ino) ?_
    rw [hg.size ino hino, if_pos rfl]
    exact lt_of_lt_of_le (Nat.lt_succ_self off) (Nat.le_max_right _ _)
  have hcontent : contentAt D' h ino' off' = contentAt d (heights d) ino' off' := by
    rw [hexc.content hoffh (by rw [hg.blocks]; exact hino') hne, hg.content ino' off' hino']
  have hlt32 := fileSize_lt d ino'
  rcases hs with hs | ⟨q, m, hu, hstale⟩
  · rw [treediskRead_wf (hw.congr_heights (by rw [hblocks]; exact hheights)) hs ino' off'
      (by omega), hblocks, if_pos ⟨hino', hsize'⟩,
      contentAt_congr (hheights ino' hino'), hcontent]
  · rw [treediskRead_unwritten hw hu (by rw [hblocks]; exact hheights) (by rw [hblocks]; exact hino)
      (by rw [hblocks]; exact hino') hsize' ?_, hcontent]
    rintro rfl ⟨r, hr'⟩
    obtain ⟨r₀, hpath⟩ := hu.onPath
    have hpow : off' < 128 ^ h ino' := by
      rw [← hheights ino' hino']
      exact lt_pow_nlevels (fileSize_lt D' ino') hsize'
    have hlen := hu.length
    rw [← hlen] at hr' hpath hpow hoffh
    exact hg.null_of_stale (by omega) (by rw [hr.blocks]; exact hino) hblank hstale hlt
      (fun he => hne ⟨rfl, he⟩) (div_eq_of_digits hpow hoffh hr' hpath)

/-- The message of a store that has been cut off. -/
def powerCut : String := "power cut"

/-- A call that changes a store goes through as long as the store is not cut off. -/
def cutCall (m : EStateM String σ ℤ) : EStateM String (σ × ℕ) ℤ := fun s =>
  match s.2 with
  | 0 => .error powerCut s
  | k + 1 =>
      match m s.1 with
      | .ok r s' => .ok r (s', k)
      | .error e s' => .error e (s', k)

/-- **The store `below`, which is cut off after a number of writes**, kept beside the state.  From
then on it does not change any more, and the call does not return. -/
def cutStore (below : InodeStore σ) : InodeStore (σ × ℕ) where
  getsize ino s := below.getsize ino s.1
  setsize ino nblocks := cutCall (below.setsize ino nblocks)
  read ino offset s := below.read ino offset s.1
  write ino offset block := cutCall (below.write ino offset block)

/-- A store that is cut off is an array of blocks whose writes may fail. -/
def cutArray (A : ArrayStore below belowIno N Fails) :
    ArrayStore (cutStore below) belowIno N fun e => Fails e ∨ e = powerCut where
  Inv s := A.Inv s.1
  view s := A.view s.1
  getsize_eq s hs := A.getsize_eq s.1 hs
  read_eq s off hs hoff := A.read_eq s.1 off hs hoff
  write_spec d off b hoff := by
    rintro ⟨s, k⟩ hs
    cases k with
    | zero => exact ⟨Or.inr rfl, hs⟩
    | succ k =>
        have hspec := A.write_spec d off b hoff s hs
        have hcall : (cutStore below).write belowIno off b (s, k + 1) =
            match below.write belowIno off b s with
            | .ok r s' => .ok r (s', k)
            | .error e s' => .error e (s', k) := rfl
        rw [hcall]
        cases hw : below.write belowIno off b s with
        | ok r s' =>
            rw [hw] at hspec
            exact hspec
        | error e s' =>
            rw [hw] at hspec
            exact ⟨Or.inl hspec.1, hspec.2⟩

/-- The state that a call leaves behind, whether it returns or not. -/
def stateAfter {α : Type} : EStateM.Result String σ α → σ
  | .ok _ s => s
  | .error _ s => s

/-- What `treedisk_write` leaves on the store below, if this is cut off after `k` writes. -/
def afterWrites (ts : Treedisk σ) (ino offset : ℕ) (block : Block) (k : ℕ) (s : σ) : σ :=
  (stateAfter (treediskWrite ⟨cutStore ts.below, ts.belowIno⟩ ino offset block (s, k))).1

/-- Reads do not count. -/
theorem readWalk_cutStore (off : ℕ) (s : σ × ℕ) : ∀ n b,
    readWalk ⟨cutStore below, belowIno⟩ off s n b = readWalk ⟨below, belowIno⟩ off s.1 n b := by
  intro n
  induction n with
  | zero =>
      intro b
      rw [readWalk, readWalk]
      rfl
  | succ n ih =>
      intro b
      rw [readWalk, readWalk]
      simp only [ih]
      rfl

theorem treediskRead_cutStore (ino off : ℕ) (s : σ × ℕ) :
    treediskRead ⟨cutStore below, belowIno⟩ ino off s =
      treediskRead ⟨below, belowIno⟩ ino off s.1 := by
  rw [treediskRead, treediskRead]
  simp only [readWalk_cutStore]
  rfl

/-- **A write that is cut off anywhere leaves the other data readable**, if the new indirect blocks
of the write are blank: after any number of its writes, every other block of every file reads as
before. -/
theorem cut_keeps_files (A : ArrayStore below belowIno N Fails) {s : σ} (h : TreediskReachable A s)
    {ino off : ℕ} (hoff : off < 2 ^ 32 - 1) (hblank : Blank (A.view s) ino off) (blk : Block)
    (k : ℕ) {ino' off' : ℕ} (hino' : ino' < 64 * inodeBlocks (A.view s))
    (hlt : off' < fileSize (A.view s) ino') (hne : ¬ (ino' = ino ∧ off' = off)) :
    treediskRead ⟨below, belowIno⟩ ino' off' (afterWrites ⟨below, belowIno⟩ ino off blk k s) =
      treediskRead ⟨below, belowIno⟩ ino' off' s := by
  obtain ⟨hinv, n, F, hr⟩ := h.represents
  have hs := A.holdsOff_view hinv
  have hsk : (cutArray A).HoldsOff ∅ (A.view s) (s, k) := (cutArray A).holdsOff_view hinv
  have hsize := fileSize_lt (A.view s) ino'
  have hmem : ino' < 64 * n := by rw [← hr.blocks]; exact hino'
  rw [treediskRead_wf hr.wf hs ino' off' (by omega), if_pos ⟨hino', hlt⟩, afterWrites,
    ← treediskRead_cutStore]
  by_cases hino : ino < 64 * n
  · have hspec := treediskWrite_spec hr hino hoff blk (s, k) hsk
    cases hw : treediskWrite ⟨cutStore below, belowIno⟩ ino off blk (s, k) with
    | ok r s' =>
        have hkeeps := (treediskWrite_keeps hr hsk hoff hw (by omega) hne).2
        refine hkeeps _ ?_
        rw [treediskRead_wf hr.wf hsk ino' off' (by omega), if_pos ⟨hino', hlt⟩]
    | error e s' =>
        rw [hw] at hspec
        exact hspec.read hr hino hoff hblank hmem hlt hne
  · rw [treediskWrite_out hr hsk (by omega)]
    rw [stateAfter, treediskRead_wf hr.wf hsk ino' off' (by omega), if_pos ⟨hino', hlt⟩]

/-- On a RAM disk of ten blocks there is a file of 257 blocks, of which only the last one is
written.  A write to its block 129 links a new indirect block, which is taken from the free list and
has never been used.  Wherever the write is cut off, the block 128, which is a hole, and the block
256 read as before. -/
theorem cut_keeps_files_ramdisk :
    ∃ s, TreediskReachable (ramdiskArray (by decide : 10 < 2 ^ 32) 0) s ∧
      holeLevels s 129 (heights s 0) (node (slots s) (.inode 0) []) = 1 ∧
      treediskRead ⟨ramdisk 10, 0⟩ 0 256 s = some (firstByte 7) ∧
      ∀ k, treediskRead ⟨ramdisk 10, 0⟩ 0 128
          (afterWrites ⟨ramdisk 10, 0⟩ 0 129 (fun _ => 8) k s) = some nullBlock ∧
        treediskRead ⟨ramdisk 10, 0⟩ 0 256
          (afterWrites ⟨ramdisk 10, 0⟩ 0 129 (fun _ => 8) k s) = some (firstByte 7) := by
  have hrun : returnsZero (treediskCreate (ramdisk 10) 0 1 fun _ => nullBlock) (fun s₀ =>
      returnsZero (treediskWrite ⟨ramdisk 10, 0⟩ 0 256 (firstByte 7) s₀) fun s =>
        decide (fileSize s 0 = 257 ∧ inodeBlocks s = 1 ∧ s (allocNo s) = nullBlock ∧
        holeLevels s 129 (heights s 0) (node (slots s) (.inode 0) []) = 1 ∧
        treediskRead ⟨ramdisk 10, 0⟩ 0 128 s = some nullBlock ∧
        treediskRead ⟨ramdisk 10, 0⟩ 0 256 s = some (firstByte 7))) = true := by
    decide +kernel
  obtain ⟨s₀, hc, hrun⟩ := of_returnsZero hrun
  obtain ⟨s, hw, hfacts⟩ := of_returnsZero hrun
  obtain ⟨hsize, hblocks, hnew, hholes, hread, hread'⟩ := of_decide_eq_true hfacts
  have h : TreediskReachable (ramdiskArray (by decide : 10 < 2 ^ 32) 0) s :=
    .write (.init trivial rfl hc) (by decide) hw
  have hblank : Blank s 0 129 := by
    intro _ k m b hout hkm off' _ _ _
    obtain ⟨rfl, rfl⟩ : k = 0 ∧ m = 0 := by omega
    cases hout with
    | zero hne => rw [hnew, Block.word_nullBlock]
  have hkeeps := cut_keeps_files (ramdiskArray (by decide : 10 < 2 ^ 32) 0) h (by decide) hblank
    (fun _ => 8)
  have hino : 0 < 64 * inodeBlocks s := by rw [hblocks]; decide
  refine ⟨s, h, hholes, hread', fun k => ⟨?_, ?_⟩⟩
  · rw [hkeeps k hino (show 128 < fileSize s 0 by rw [hsize]; decide) (by decide), hread]
  · rw [hkeeps k hino (show 256 < fileSize s 0 by rw [hsize]; decide) (by decide), hread']

set_option maxRecDepth 100000 in
/-- **A write that is cut off can expose an old reference.**  A file system of 135 blocks has two
free-list blocks.  A file of 257 blocks, of which only the last one is written, takes the free
blocks that the first of them refers to; so the next write, to the block 129 of the file, takes this
free-list block itself as an indirect block.  When it has been linked and not been written, its
first reference is still that to the other free-list block, and the block 128 of the file, which is
a hole, reads as that one. -/
theorem cut_exposes_reference :
    ∃ s, TreediskReachable (ramdiskArray (by decide : 135 < 2 ^ 32) 0) s ∧ 0 < 64 * inodeBlocks s ∧
      128 < fileSize s 0 ∧
      treediskRead ⟨ramdisk 135, 0⟩ 0 128 (afterWrites ⟨ramdisk 135, 0⟩ 0 129 (fun _ => 8) 2 s) ≠
        treediskRead ⟨ramdisk 135, 0⟩ 0 128 s := by
  have hrun : returnsZero (treediskCreate (ramdisk 135) 0 1 fun _ => nullBlock) (fun s₁ =>
      returnsZero (treediskWrite ⟨ramdisk 135, 0⟩ 0 256 (fun _ => 7) s₁) fun s =>
        0 < 64 * inodeBlocks s ∧ 128 < fileSize s 0 ∧
        (treediskRead ⟨ramdisk 135, 0⟩ 0 128
          (afterWrites ⟨ramdisk 135, 0⟩ 0 129 (fun _ => 8) 2 s)).map (fun b => b.word 1) = some 3 ∧
        (treediskRead ⟨ramdisk 135, 0⟩ 0 128 s).map (fun b => b.word 1) = some 0) = true := by
    decide +kernel
  obtain ⟨s₁, hc, hrun⟩ := of_returnsZero hrun
  obtain ⟨s, hw, hfacts⟩ := of_returnsZero hrun
  obtain ⟨hblocks, hsize, hafter, hbefore⟩ := of_decide_eq_true hfacts
  refine ⟨s, .write (.init trivial rfl hc) (by decide) hw, hblocks, hsize, ?_⟩
  intro he
  rw [he, hbefore] at hafter
  exact absurd hafter (by decide)

end Cut

end Egos
