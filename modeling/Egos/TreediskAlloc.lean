/-
**Taking a block from the free list.**

`treedisk_alloc_block` takes the last free reference out of the first free-list block, or, when
there is none left, that free-list block itself.  Read on the forest of `Egos/TreediskLayout.lean`,
the first case clears the slot of a position with nothing below it, and the second one replaces the
root of the free list by its only child.  Either way one block is detached, and nothing else moves.

Main definitions:

* `Egos.allocNo`, `Egos.allocDisk` — the block taken, and the disk afterwards;
* `Egos.WriteFails` — how a write can stop: the free list is empty, or the store below fails.

Main results:

* `Egos.Wf.alloc`, `Egos.Wf.alloc_sameData` — **the block taken is the only one that changes its
  place**;
* `Egos.treediskAllocBlock_spec` — `treedisk_alloc_block` does this to an array of blocks.
-/

import Egos.TreediskLayout

set_option autoImplicit false

namespace Egos

open Function (update update_apply update_comm update_of_ne update_self)
open PointerForest Hoare

/-! ### The scan of a free-list block -/

/-- The scan finds the last reference that is not `0`, if there is one. -/
theorem scanRefs_spec (b : Block) :
    ∀ n, (scanRefs b n = 0 ∧ ∀ i, 0 < i → i ≤ n → b.word (Fin.ofNat 128 i) = 0) ∨
      (0 < scanRefs b n ∧ scanRefs b n ≤ n ∧ b.word (Fin.ofNat 128 (scanRefs b n)) ≠ 0) := by
  intro n
  induction n with
  | zero => exact Or.inl ⟨rfl, by omega⟩
  | succ n ih =>
      by_cases h : b.word (Fin.ofNat 128 (n + 1)) ≠ 0
      · right
        rw [scanRefs, if_pos h]
        exact ⟨by omega, le_rfl, h⟩
      · rw [scanRefs, if_neg h]
        rcases ih with ⟨h0, hz⟩ | ⟨hpos, hle, hne⟩
        · left
          refine ⟨h0, fun i hi hin => ?_⟩
          rcases Nat.lt_succ_iff_lt_or_eq.1 (Nat.lt_succ_of_le hin) with hlt | rfl
          · exact hz i hi (by omega)
          · exact not_not.1 h
        · exact Or.inr ⟨hpos, by omega, hne⟩

/-- The index at which the scan of the first free-list block stops. -/
def allocSlot (d : Disk) : ℕ := scanRefs (d (d 0).freeList) 127

/-- The block taken from the free list. -/
def allocNo (d : Disk) : ℕ :=
  if allocSlot d = 0 then (d 0).freeList
  else (d (d 0).freeList).word (Fin.ofNat 128 (allocSlot d))

/-- The disk after a block has been taken from the free list. -/
def allocDisk (d : Disk) : Disk :=
  if allocSlot d = 0 then
    update d 0 ((d 0).setWord 1 ((d (d 0).freeList).word 0))
  else
    update d (d 0).freeList
      ((d (d 0).freeList).setWord (Fin.ofNat 128 (allocSlot d)) 0)

/-- When the scan finds nothing, all references but the first are `0`. -/
theorem word_eq_zero_of_allocSlot {d : Disk} (h : allocSlot d = 0) {i : Fin 128} (hi : i ≠ 0) :
    (d (d 0).freeList).word i = 0 := by
  rcases scanRefs_spec (d (d 0).freeList) 127 with ⟨-, hz⟩ | ⟨hpos, -⟩
  · have hpos : 0 < i.val := Nat.pos_of_ne_zero fun h0 => hi (Fin.ext h0)
    have := hz i.val hpos (by omega)
    rwa [Fin.ofNat_val_eq_self] at this
  · exact absurd h (by rw [allocSlot]; omega)

/-- When the scan finds something, it is a free block. -/
theorem allocSlot_ne_zero {d : Disk} (h : allocSlot d ≠ 0) :
    Fin.ofNat 128 (allocSlot d) ≠ 0 ∧
      (d (d 0).freeList).word (Fin.ofNat 128 (allocSlot d)) ≠ 0 := by
  rcases scanRefs_spec (d (d 0).freeList) 127 with ⟨h0, -⟩ | ⟨hpos, hle, hne⟩
  · exact absurd h0 h
  · refine ⟨fun h0 => ?_, hne⟩
    have hval : allocSlot d % 128 = 0 := congrArg Fin.val h0
    have hle' : allocSlot d ≤ 127 := hle
    omega

/-! ### The forest after an allocation -/

section Forest

variable {N : ℕ} {d : Disk} {h : ℕ → ℕ} {X : Set ℕ}

/-- The first free-list block is a block that can be handed out. -/
theorem Wf.freeList_mem (hw : Wf N d h X) (hne : (d 0).freeList ≠ 0) :
    inodeBlocks d < (d 0).freeList ∧ (d 0).freeList < N :=
  hw.node_lt (r := .free) (p := []) (position_free_nil _ _) hne

theorem Wf.freeList_lt (hw : Wf N d h X) : (d 0).freeList < N := by
  have hroom := hw.room
  by_cases hne : (d 0).freeList = 0
  · omega
  · exact (hw.freeList_mem hne).2

/-- The slot of a free reference is located on the free list. -/
theorem located_allocSlot (hne : (d 0).freeList ≠ 0) (i : Fin 128) :
    Located (slots d) (.ref (d 0).freeList i) .free [i] :=
  Located.ref (f := slots d) (r := .free) [] i hne

/-- **Taking a block from the free list** detaches it from the forest. -/
theorem Wf.alloc_insert (hw : Wf N d h X) (hne : (d 0).freeList ≠ 0) :
    Wf N (allocDisk d) h (insert (allocNo d) X) ∧ inodeBlocks (allocDisk d) = inodeBlocks d := by
  have hroot : slots d (.root .free) ≠ 0 := hne
  have hhead := hw.freeList_mem hne
  by_cases hslot : allocSlot d = 0
  · -- the free-list block itself is taken, and the superblock refers to the next one
    have hd : allocDisk d =
        update d 0 ((d 0).setWord 1 ((d (d 0).freeList).word 0)) := by
      rw [allocDisk, if_pos hslot]
    have hn : inodeBlocks (allocDisk d) = inodeBlocks d := by
      rw [hd, inodeBlocks, update_self]
      exact Block.word_setWord_of_ne _ (by decide) _
    have hno : allocNo d = (d 0).freeList := by rw [allocNo, if_pos hslot]
    refine ⟨⟨by rw [hn]; exact hw.room, hw.bound, by rw [hn]; exact hw.inodes, ?_⟩, hn⟩
    have hpop := hw.part.pop (slots (allocDisk d)) 0 (position_closed _ _) hroot
      ?_ ?_ ?_ (position_free_cons _ _) (position_free_nil _ _) ?_
    · rw [hn, hno]
      exact hpop
    · rw [hd, slots_free, update_self]
      exact Block.word_setWord_self _ _ (Block.word_lt _ _)
    · intro r hr hv
      cases r with
      | free => exact absurd rfl hr
      | inode ino => rw [hd, slots_inode, slots_inode, update_of_ne (by omega)]
    · intro r p i hv h0
      rw [hd]
      exact slots_update_ref h0 _ _
    · exact fun j hj => word_eq_zero_of_allocSlot hslot hj
  · -- a free reference is taken
    obtain ⟨hi, hword⟩ := allocSlot_ne_zero hslot
    have hd : allocDisk d = update d (d 0).freeList
        ((d (d 0).freeList).setWord (Fin.ofNat 128 (allocSlot d)) 0) := by
      rw [allocDisk, if_neg hslot]
    have hn : inodeBlocks (allocDisk d) = inodeBlocks d := by
      rw [hd, inodeBlocks_update hne]
    have hno : allocNo d = (d (d 0).freeList).word (Fin.ofNat 128 (allocSlot d)) := by
      rw [allocNo, if_neg hslot]
    refine ⟨⟨by rw [hn]; exact hw.room, hw.bound, by rw [hn]; exact hw.inodes, ?_⟩, hn⟩
    have hmax : ∀ j, ¬ Position (inodeBlocks d) h .free ([Fin.ofNat 128 (allocSlot d)] ++ [j]) :=
      fun j hv => absurd (position_free_leaf hi hv) (by simp)
    have hun := hw.part.unlink (slots (allocDisk d)) (position_closed _ _)
      (located_allocSlot hne _) (by simp [Position]) hmax hword ?_ ?_
    · rw [hn, hno]
      exact hun
    · rw [hd, slots_ref, update_self]
      exact Block.word_setWord_self _ _ (by omega)
    · rintro t ht ⟨r, p, hv, hloc⟩
      rw [hd]
      cases hloc with
      | root => exact slots_update_root hhead.1 _ hv
      | ref q i hq =>
          by_cases hb : node (slots d) r q = (d 0).freeList
          · rw [hb] at ht ⊢
            have hine : i ≠ Fin.ofNat 128 (allocSlot d) := fun he => ht (by rw [he])
            rw [slots_ref, slots_ref, update_self]
            exact Block.word_setWord_of_ne _ hine _
          · exact slots_update_ref hb _ _

theorem Wf.alloc (hw : Wf N d h ∅) (hne : (d 0).freeList ≠ 0) :
    Wf N (allocDisk d) h {allocNo d} ∧ inodeBlocks (allocDisk d) = inodeBlocks d := by
  have halloc := hw.alloc_insert hne
  rw [insert_empty_eq] at halloc
  exact halloc

/-- The nodes of the trees of the inodes are not touched by an allocation, nor are the inodes. -/
theorem Wf.alloc_keeps (hw : Wf N d h X) (hne : (d 0).freeList ≠ 0) {ino : ℕ}
    {p : List (Fin 128)} (hv : Position (inodeBlocks d) h (.inode ino) p) :
    allocDisk d (1 + ino / 64) = d (1 + ino / 64) ∧
      (node (slots d) (.inode ino) p ≠ 0 →
        allocDisk d (node (slots d) (.inode ino) p) = d (node (slots d) (.inode ino) p)) := by
  have hhead := hw.freeList_mem hne
  have hino : ino < 64 * inodeBlocks d := hv.1
  by_cases hslot : allocSlot d = 0
  · rw [allocDisk, if_pos hslot]
    exact ⟨update_of_ne (by omega) _ _, fun h0 => update_of_ne h0 _ _⟩
  · rw [allocDisk, if_neg hslot]
    refine ⟨update_of_ne (by omega) _ _, fun h0 => update_of_ne ?_ _ _⟩
    -- a node of a tree is not the first free-list block
    intro he
    have := (hw.part.inj hv (position_free_nil _ _) h0 he).1
    simp at this

theorem Wf.alloc_node (hw : Wf N d h X) (hne : (d 0).freeList ≠ 0) {ino : ℕ}
    {p : List (Fin 128)} (hv : Position (inodeBlocks d) h (.inode ino) p) :
    node (slots (allocDisk d)) (.inode ino) p = node (slots d) (.inode ino) p := by
  -- restricted to the tree of `ino`, no slot has changed
  refine node_congr (fun r q => r = .inode ino ∧ Position (inodeBlocks d) h r q) ?_ ?_ _ _ ⟨rfl, hv⟩
  · rintro r q i ⟨hr, hq⟩
    exact ⟨hr, position_closed _ _ _ _ _ hq⟩
  · rintro s r q ⟨rfl, hq⟩ hloc
    cases hloc with
    | root => rw [slots_inode, slots_inode, (hw.alloc_keeps hne hq).1]
    | ref q i h0 =>
        rw [slots_ref, slots_ref,
          (hw.alloc_keeps hne (position_closed _ _ _ _ _ hq)).2 h0]

/-- **An allocation does not change any file.** -/
theorem Wf.alloc_sameData (hw : Wf N d h X) (hne : (d 0).freeList ≠ 0) :
    SameData d h (allocDisk d) h := by
  refine SameData.of_nodes (hw.alloc_insert hne).2 ?_ ?_ ?_
  · intro ino hino
    rw [fileSize, fileSize, (hw.alloc_keeps hne (position_inode (p := []) hino (Nat.zero_le _))).1]
  · exact fun ino p hv => hw.alloc_node hne hv
  · exact fun ino p hv _ h0 => (hw.alloc_keeps hne hv).2 h0

/-- The block taken can be handed out, and is not on the free list or in a tree any more. -/
theorem Wf.allocNo_mem (hw : Wf N d h X) (hne : (d 0).freeList ≠ 0) :
    inodeBlocks d < allocNo d ∧ allocNo d < N := by
  obtain ⟨hw', hn⟩ := hw.alloc_insert hne
  have := hw'.part.sub (Set.mem_insert (allocNo d) X)
  rwa [hn] at this

/-- The contents of the block taken do not change. -/
theorem Wf.allocDisk_allocNo (hw : Wf N d h X) (hne : (d 0).freeList ≠ 0) :
    allocDisk d (allocNo d) = d (allocNo d) := by
  have hmem := hw.allocNo_mem hne
  by_cases hslot : allocSlot d = 0
  · rw [allocDisk, if_pos hslot, update_of_ne (by omega)]
  · obtain ⟨hi, hword⟩ := allocSlot_ne_zero hslot
    rw [allocDisk, if_neg hslot, update_of_ne]
    -- a free block is not the free-list block that refers to it
    intro he
    have hvi : Position (inodeBlocks d) h .free [Fin.ofNat 128 (allocSlot d)] := by simp [Position]
    have hnode : node (slots d) .free [Fin.ofNat 128 (allocSlot d)] = allocNo d := by
      rw [← (located_allocSlot hne _).value, allocNo, if_neg hslot]
      rfl
    have hp := (hw.part.inj hvi (position_free_nil _ _) (by rw [hnode]; omega)
      (hnode.trans he)).2
    simp at hp

/-- **The last block of the free list is empty**: it is a free-list block without references. -/
theorem Wf.allocNo_last (hw : Wf N d h X) (hne : (d 0).freeList ≠ 0)
    (hlast : (allocDisk d 0).freeList = 0) : d (allocNo d) = nullBlock := by
  have hhead := hw.freeList_mem hne
  by_cases hslot : allocSlot d = 0
  · rw [allocNo, if_pos hslot]
    refine Block.eq_nullBlock fun i => ?_
    by_cases hi : i = 0
    · rw [allocDisk, if_pos hslot, update_self, Block.freeList,
        Block.word_setWord_self _ _ (Block.word_lt _ _)] at hlast
      rw [hi]
      exact hlast
    · exact word_eq_zero_of_allocSlot hslot hi
  · rw [allocDisk, if_neg hslot, update_of_ne (by omega)] at hlast
    exact absurd hlast hne

/-- An allocation neither reads nor changes a block outside of the free list. -/
theorem alloc_update {c : ℕ} (hc : c ≠ 0) (hfree : c ≠ (d 0).freeList) (blk : Block) :
    allocNo (update d c blk) = allocNo d ∧
      allocDisk (update d c blk) = update (allocDisk d) c blk := by
  have h0 : update d c blk 0 = d 0 := update_of_ne hc.symm _ _
  have hhead : update d c blk (d 0).freeList = d (d 0).freeList :=
    update_of_ne hfree.symm _ _
  have hslot : allocSlot (update d c blk) = allocSlot d := by
    rw [allocSlot, allocSlot, h0, hhead]
  rw [allocNo, allocNo, allocDisk, allocDisk, hslot, h0, hhead]
  refine ⟨rfl, ?_⟩
  split
  · exact update_comm hc _ _ _
  · exact update_comm hfree _ _ _

/-- Writing to a block that is not linked changes no file. -/
theorem Wf.write_detached (hw : Wf N d h X) {b : ℕ} (hb : b ∈ X) (blk : Block) :
    Wf N (update d b blk) h X ∧ SameData d h (update d b blk) h := by
  have hmem := hw.part.sub hb
  have hlt : inodeBlocks d < b := hmem.1
  have hn := inodeBlocks_update (d := d) (c := b) (by omega) blk
  have hnode : ∀ r p, Position (inodeBlocks d) h r p → node (slots d) r p ≠ 0 →
      node (slots d) r p ≠ b := by
    intro r p hv h0 he
    exact (hw.part.mem hv h0).2 (he ▸ hb)
  have hslots : ∀ s r p, Position (inodeBlocks d) h r p → Located (slots d) s r p →
      slots (update d b blk) s = slots d s := by
    intro s r p hv hloc
    cases hloc with
    | root => exact slots_update_root hlt _ hv
    | ref q i h0 => exact slots_update_ref (hnode r q (position_closed _ _ _ _ _ hv) h0) _ _
  refine ⟨⟨by rw [hn]; exact hw.room, hw.bound, by rw [hn]; exact hw.inodes, ?_⟩, ?_⟩
  · rw [hn]
    exact hw.part.congr (position_closed _ _) hslots
  · refine SameData.of_nodes hn (fun ino hino => fileSize_update hlt _ hino) ?_ ?_
    · exact fun ino p hv => node_congr _ (position_closed _ _) hslots _ _ hv
    · exact fun ino p hv _ h0 => update_of_ne (hnode _ _ hv h0) _ _

end Forest

/-! ### What the blocks hold that are handed out -/

/-- The block that is handed out after `i` others holds `b` when it is handed out. -/
inductive HandedOut : Disk → ℕ → Block → Prop
  | zero {d : Disk} (hne : (d 0).freeList ≠ 0) : HandedOut d 0 (d (allocNo d))
  | succ {d : Disk} {i : ℕ} {b : Block} (hne : (d 0).freeList ≠ 0)
      (h : HandedOut (allocDisk d) i b) : HandedOut d (i + 1) b

/-- The disks `d` and `d'` have the same free list, and the blocks on it hold the same. -/
structure SameFree (d d' : Disk) : Prop where
  super : d' 0 = d 0
  blocks : ∀ p, (∀ i ∈ p.dropLast, i = 0) → node (slots d) .free p ≠ 0 →
    d' (node (slots d) .free p) = d (node (slots d) .free p)

section Free

variable {N : ℕ} {d d' : Disk} {h : ℕ → ℕ} {X : Set ℕ}

theorem SameFree.refl (d : Disk) : SameFree d d := ⟨rfl, fun _ _ _ => rfl⟩

/-- The blocks on the free list after an allocation were there before. -/
theorem Wf.alloc_free_node (hw : Wf N d h X) (hne : (d 0).freeList ≠ 0) {p : List (Fin 128)}
    (hv : Position (inodeBlocks d) h .free p) (h0 : node (slots (allocDisk d)) .free p ≠ 0) :
    ∃ p', Position (inodeBlocks d) h .free p' ∧
      node (slots d) .free p' = node (slots (allocDisk d)) .free p := by
  obtain ⟨hw', hn⟩ := hw.alloc_insert hne
  have hv' : Position (inodeBlocks (allocDisk d)) h .free p := hv
  obtain ⟨hU, hX⟩ := hw'.part.mem hv' h0
  rw [hn] at hU
  obtain ⟨r, p', hp', hnode⟩ := hw.part.cover hU fun hx => hX (Set.mem_insert_of_mem _ hx)
  cases r with
  | free => exact ⟨p', hp', hnode⟩
  | inode ino =>
      -- the trees have not changed
      have hkeep := hw.alloc_node hne hp'
      have hp'' : Position (inodeBlocks (allocDisk d)) h (.inode ino) p' := by
        rw [hn]
        exact hp'
      have hr := (hw'.part.inj hv' hp'' h0 (hnode.symm.trans hkeep.symm)).1
      simp at hr

/-- Disks with the same free list hand out the same blocks, and have the same free list
afterwards. -/
theorem SameFree.alloc (hf : SameFree d d') (hw : Wf N d h X) (hne : (d 0).freeList ≠ 0) :
    d' (allocNo d') = d (allocNo d) ∧ SameFree (allocDisk d) (allocDisk d') := by
  have hhead : d' (d 0).freeList = d (d 0).freeList := hf.blocks [] (by simp) hne
  have hslot : allocSlot d' = allocSlot d := by rw [allocSlot, allocSlot, hf.super, hhead]
  have hno : allocNo d' = allocNo d := by
    rw [allocNo, allocNo, hslot, hf.super, hhead]
  have hd : allocDisk d = (if allocSlot d = 0 then
      update d 0 ((d 0).setWord 1 ((d (d 0).freeList).word 0)) else
      update d (d 0).freeList
        ((d (d 0).freeList).setWord (Fin.ofNat 128 (allocSlot d)) 0)) := rfl
  have hd' : allocDisk d' = (if allocSlot d = 0 then
      update d' 0 ((d 0).setWord 1 ((d (d 0).freeList).word 0)) else
      update d' (d 0).freeList
        ((d (d 0).freeList).setWord (Fin.ofNat 128 (allocSlot d)) 0)) := by
    rw [allocDisk, hslot, hf.super, hhead]
  -- a block that is the same on both disks is the same after the allocation
  have hstep : ∀ x, d' x = d x → allocDisk d' x = allocDisk d x := by
    intro x hx
    rw [hd, hd']
    split <;> simp only [update_apply, hx]
  refine ⟨?_, hstep 0 hf.super, ?_⟩
  · rw [hno]
    by_cases hs : allocSlot d = 0
    · rw [allocNo, if_pos hs]
      exact hhead
    · have hword := (allocSlot_ne_zero hs).2
      have hvalue := (located_allocSlot hne (Fin.ofNat 128 (allocSlot d))).value
      rw [slots_ref] at hvalue
      rw [allocNo, if_neg hs, hvalue]
      exact hf.blocks _ (by simp) (by rw [← hvalue]; exact hword)
  · intro p hv h0
    obtain ⟨p', hp', hnode⟩ := hw.alloc_free_node hne hv h0
    rw [← hnode] at h0 ⊢
    exact hstep _ (hf.blocks p' hp' h0)

theorem SameFree.handedOut {i : ℕ} {b : Block} (hout : HandedOut d i b) :
    ∀ {d' : Disk} {X : Set ℕ}, SameFree d d' → Wf N d h X → HandedOut d' i b := by
  induction hout with
  | @zero d hne =>
      intro d' X hf hw
      rw [← (hf.alloc hw hne).1]
      exact .zero (by rw [hf.super]; exact hne)
  | @succ d i b hne _ ih =>
      intro d' X hf hw
      exact .succ (by rw [hf.super]; exact hne) (ih (hf.alloc hw hne).2 (hw.alloc_insert hne).1)

end Free

/-! ### The code -/

/-- The message of the panic upon an empty free list. -/
def storeFull : String := "treedisk_alloc_block: inode store is full\n"

/-- How a write can stop in a panic: the free list is empty, or the store below fails. -/
def WriteFails (Fails : String → Prop) (e : String) : Prop := e = storeFull ∨ Fails e

section Code

variable {σ : Type} {below : InodeStore σ} {belowIno N : ℕ} {Fails : String → Prop}
  {A : ArrayStore below belowIno N Fails}

/-- A write below `N` succeeds, or the store below fails and holds what it held. -/
theorem writeOrPanic_spec (C : Set ℕ) (D : Disk) (off : ℕ) (b : Block) (msg : String)
    (hoff : off < N) :
    Triple (A.HoldsOff C D) (writeOrPanic below belowIno off b msg)
      (fun _ s => A.HoldsOff (C \ {off}) (update D off b) s)
      (fun e s => Fails e ∧ A.HoldsOff C D s) := by
  refine Triple.bind (A.write_holdsOff C D off b hoff) fun r => Triple.of_pre fun hr => ?_
  subst hr
  exact Triple.pure fun _ hs => hs

/-- A write to a disk that is known. -/
theorem writeOrPanic_update (V : Disk) (off : ℕ) (b : Block) (msg : String) (hoff : off < N) :
    Triple (A.HoldsOff ∅ V) (writeOrPanic below belowIno off b msg)
      (fun _ s => A.HoldsOff ∅ (update V off b) s)
      (fun e s => Fails e ∧ A.HoldsOff ∅ V s) :=
  (writeOrPanic_spec ∅ V off b msg hoff).conseq (fun _ hs => hs) (fun _ _ hs => hs.mono (by simp))
    fun _ _ he => he

/-- **`treedisk_alloc_block`** takes a block from the free list, or panics if that is empty. -/
theorem treediskAllocBlock_spec {V : Disk} (hN : 0 < N) (hhead : (V 0).freeList < N)
    (snap : Snapshot) (hsnap : snap.superblock = V 0) :
    Triple (A.HoldsOff ∅ V) (treediskAllocBlock ⟨below, belowIno⟩ snap)
      (fun r s => ((V 0).freeList ≠ 0 ∧
          r = (allocNo V, { snap with superblock := allocDisk V 0 })) ∧
        A.HoldsOff ∅ (allocDisk V) s)
      (fun e s => ((e = storeFull ∧ (V 0).freeList = 0) ∨ Fails e) ∧ A.HoldsOff ∅ V s) := by
  rw [treediskAllocBlock, hsnap]
  by_cases hne : (V 0).freeList = 0
  · simp only [hne, if_true]
    exact Triple.throw fun _ hs => ⟨Or.inl ⟨rfl, trivial⟩, hs⟩
  · simp only [if_neg hne]
    refine Triple.get_bind fun s₀ hs₀ => ?_
    rw [A.read_holdsOff hs₀ hhead (Set.notMem_empty _), Option.getD_some]
    by_cases hslot : allocSlot V = 0
    · have hslot' : scanRefs (V (V 0).freeList) 127 = 0 := hslot
      simp only [hslot', if_true]
      refine Triple.bind ((writeOrPanic_update V 0 _ _ hN).conseq
        (fun s hs => hs ▸ hs₀) (fun _ _ hq => hq) fun _ _ he => ⟨Or.inr he.1, he.2⟩) fun _ => ?_
      refine Triple.pure fun s hs => ⟨⟨hne, ?_⟩, ?_⟩
      · rw [allocNo, if_pos hslot, allocDisk, if_pos hslot, update_self]
      · rw [allocDisk, if_pos hslot]
        exact hs
    · have hslot' : ¬ scanRefs (V (V 0).freeList) 127 = 0 := hslot
      simp only [if_neg hslot']
      refine Triple.bind ((writeOrPanic_update V (V 0).freeList _ _ hhead).conseq
        (fun s hs => hs ▸ hs₀) (fun _ _ hq => hq) fun _ _ he => ⟨Or.inr he.1, he.2⟩) fun _ => ?_
      refine Triple.pure fun s hs => ⟨⟨hne, ?_⟩, ?_⟩
      · have hsame : { snap with superblock := V 0 } = snap := by rw [← hsnap]
        rw [allocNo, if_neg hslot, allocDisk, if_neg hslot, update_of_ne (Ne.symm hne),
          hsame]
        rfl
      · rw [allocDisk, if_neg hslot]
        exact hs

end Code

end Egos
