/-
**The updates of a disk that a write is made of.**

Apart from taking blocks from the free list (`Egos/TreediskAlloc.lean`), `treedisk_write` changes a
disk in four ways: it stores a new size in an inode, it puts an indirect block above the root of a
tree, it stores a new block in a reference that was a hole, and it overwrites a data block.  Each of
them is described here by what it does to the forest of the disk.

Main definitions:

* `Egos.SlotAt` — the word of a block that refers to a position of a tree;
* `Egos.linkDisk`, `Egos.sizeDisk` — the disks after a block has been linked, and after a size has
  been stored;
* `Egos.SameExcept` — two disks store the same files, except at one position.

Main results:

* `Egos.Wf.link`, `Egos.Wf.link_sameExcept` — **a new block is linked into a hole**;
* `Egos.Wf.push`, `Egos.Wf.push_sameData` — **a tree grows by one level and keeps its data**;
* `Egos.Wf.size`, `Egos.Wf.store` — a size is stored, and a data block is overwritten.
-/

import Egos.TreediskAlloc

set_option autoImplicit false

namespace Egos

open Function (update update_eq_self update_of_ne update_self)
open PointerForest FixedDigits

/-! ### References and the words that store them -/

/-- The word `i` of the block `c` refers to the position `p` of the tree of `ino`. -/
def SlotAt (d : Disk) (ino : ℕ) (p : List (Fin 128)) (c : ℕ) (i : Fin 128) : Prop :=
  (p = [] ∧ c = 1 + ino / 64 ∧ i = Block.rootIdx (Fin.ofNat 64 ino)) ∨
    ∃ q, p = q ++ [i] ∧ node (slots d) (.inode ino) q = c ∧ c ≠ 0

/-- The disk after the word `i` of the block `c` has been set to `b`, and `b` to `blk`. -/
def linkDisk (d : Disk) (c : ℕ) (i : Fin 128) (b : ℕ) (blk : Block) : Disk :=
  update (update d c ((d c).setWord i b)) b blk

/-- The disk after the size `v` has been stored in the inode `ino`. -/
def sizeDisk (d : Disk) (ino v : ℕ) : Disk :=
  update d (1 + ino / 64)
    ((d (1 + ino / 64)).setWord (Block.nblocksIdx (Fin.ofNat 64 ino)) v)

/-- Different inodes in one block have different indices. -/
theorem ofNat_ne_of_ne {ino ino' : ℕ} (hne : ino' ≠ ino) (hdiv : ino' / 64 = ino / 64) :
    Fin.ofNat 64 ino' ≠ Fin.ofNat 64 ino := by
  intro he
  have hmod : ino' % 64 = ino % 64 := congrArg Fin.val he
  omega

section Slot

variable {N : ℕ} {d : Disk} {h : ℕ → ℕ} {X : Set ℕ} {ino : ℕ} {p : List (Fin 128)} {c : ℕ}
  {i : Fin 128}

/-- What the word stores is the node at the position. -/
theorem SlotAt.word_eq (hs : SlotAt d ino p c i) :
    (d c).word i = node (slots d) (.inode ino) p := by
  rcases hs with ⟨rfl, rfl, rfl⟩ | ⟨q, rfl, rfl, hc⟩
  · rfl
  · rw [node_concat, if_neg hc, slots_ref]

/-- The block that stores a reference of a tree is an inode block or a node of the tree. -/
theorem SlotAt.cases (hw : Wf N d h X) (hs : SlotAt d ino p c i)
    (hv : Position (inodeBlocks d) h (.inode ino) p) :
    (0 < c ∧ c ≤ inodeBlocks d) ∨
      ∃ q, Position (inodeBlocks d) h (.inode ino) q ∧ node (slots d) (.inode ino) q = c ∧ c ≠ 0 ∧
        q.length < h ino ∧ inodeBlocks d < c ∧ c < N := by
  have hino : ino < 64 * inodeBlocks d := hv.1
  rcases hs with ⟨rfl, rfl, rfl⟩ | ⟨q, rfl, rfl, hc⟩
  · left
    omega
  · right
    have hq := position_closed _ _ _ _ _ hv
    have hlen := hv.2
    simp only [List.length_append, List.length_singleton] at hlen
    exact ⟨q, hq, rfl, hc, by omega, hw.node_lt hq hc⟩

theorem SlotAt.lt (hw : Wf N d h X) (hs : SlotAt d ino p c i)
    (hv : Position (inodeBlocks d) h (.inode ino) p) : 0 < c ∧ c < N := by
  have hroom := hw.room
  rcases hs.cases hw hv with hc | ⟨q, -, -, -, -, hc⟩ <;> omega

/-- The block that stores a reference of a tree is not on the free list. -/
theorem SlotAt.ne_freeList (hw : Wf N d h X) (hs : SlotAt d ino p c i)
    (hv : Position (inodeBlocks d) h (.inode ino) p) : (d 0).freeList ≠ c := by
  have hlt := hs.lt hw hv
  intro he
  have hne : (d 0).freeList ≠ 0 := by omega
  have hmem := hw.freeList_mem hne
  rcases hs.cases hw hv with hc | ⟨q, hq, hqc, hc0, -, -⟩
  · omega
  · have := (hw.part.inj hq (position_free_nil _ _) (by rw [hqc]; exact hc0)
      (hqc.trans he.symm)).1
    simp at this

/-- A node of the bottom level of a tree does not store a reference of a tree. -/
theorem SlotAt.ne_bottom (hw : Wf N d h X) (hs : SlotAt d ino p c i)
    (hv : Position (inodeBlocks d) h (.inode ino) p) {ino' : ℕ} {p' : List (Fin 128)}
    (hv' : Position (inodeBlocks d) h (.inode ino') p') (hlen : p'.length = h ino')
    (h0 : node (slots d) (.inode ino') p' ≠ 0) : node (slots d) (.inode ino') p' ≠ c := by
  intro he
  have hlt := hw.node_lt hv' h0
  rcases hs.cases hw hv with hc | ⟨q, hq, hqc, hc0, hqlen, -⟩
  · omega
  · obtain ⟨hr, rfl⟩ := hw.part.inj hv' hq h0 (he.trans hqc.symm)
    rw [Root.inode.injEq] at hr
    subst hr
    omega

/-- The slot in the sense of the forest, and what becomes of the slots when the word is set to `b`
and the contents of `b` change. -/
theorem SlotAt.exists_located {b : ℕ} (hw : Wf N d h X) (hs : SlotAt d ino p c i)
    (hv : Position (inodeBlocks d) h (.inode ino) p) (hb : inodeBlocks d < b) (hbN : b < N)
    (hcb : c ≠ b) (blk : Block) :
    ∃ s, Located (slots d) s (.inode ino) p ∧ slots d s = (d c).word i ∧
      slots (linkDisk d c i b blk) s = b ∧
      ∀ t, t ≠ s → (∀ j, t ≠ .ref b j) →
        (∃ r q, Position (inodeBlocks d) h r q ∧ Located (slots d) t r q) →
        slots (linkDisk d c i b blk) t = slots d t := by
  have hbound := hw.bound
  have hino : ino < 64 * inodeBlocks d := hv.1
  rcases hs with ⟨rfl, rfl, rfl⟩ | ⟨q, rfl, rfl, hc⟩
  · -- the reference is the root stored in the inode
    refine ⟨.root (.inode ino), .root, rfl, ?_, ?_⟩
    · rw [slots_inode, linkDisk, update_of_ne hcb, update_self]
      exact Block.word_setWord_self _ _ (by omega)
    · rintro t ht htb ⟨r, q, hvq, hloc⟩
      cases hloc with
      | root =>
          cases r with
          | free =>
              rw [slots_free, slots_free, linkDisk, update_of_ne (by omega),
                update_of_ne (by omega)]
          | inode ino' =>
              have hino' : ino' < 64 * inodeBlocks d := hvq.1
              have hne : ino' ≠ ino := fun he => ht (by rw [he])
              rw [slots_inode, slots_inode, linkDisk, update_of_ne (by omega)]
              by_cases hdiv : ino' / 64 = ino / 64
              · rw [hdiv, update_self]
                exact Block.word_setWord_of_ne _
                  (fun he => ofNat_ne_of_ne hne hdiv (Block.rootIdx_inj he)) _
              · rw [update_of_ne (by omega)]
      | ref q j h0 =>
          have hq := hw.node_lt (position_closed _ _ _ _ _ hvq) h0
          have hqb : node (slots d) r q ≠ b := fun he => htb j (by rw [he])
          rw [linkDisk, slots_update_ref hqb, slots_update_ref (by omega)]
  · -- the reference is stored in a node of the tree
    have hq := position_closed _ _ _ _ _ hv
    have hqlt := hw.node_lt hq hc
    refine ⟨.ref (node (slots d) (.inode ino) q) i, .ref q i hc, rfl, ?_, ?_⟩
    · rw [slots_ref, linkDisk, update_of_ne hcb, update_self]
      exact Block.word_setWord_self _ _ (by omega)
    · rintro t ht htb ⟨r, q', hvq, hloc⟩
      cases hloc with
      | root =>
          have hn := inodeBlocks_update (d := d) hc
            ((d (node (slots d) (.inode ino) q)).setWord i b)
          rw [linkDisk, slots_update_root (h := h) (by rw [hn]; exact hb) blk
            (by rw [hn]; exact hvq), slots_update_root hqlt.1 _ hvq]
      | ref q' j h0 =>
          have hqb : node (slots d) r q' ≠ b := fun he => htb j (by rw [he])
          rw [linkDisk, slots_update_ref hqb]
          by_cases hx : node (slots d) r q' = node (slots d) (.inode ino) q
          · rw [hx] at ht ⊢
            have hji : j ≠ i := fun he => ht (by rw [he])
            rw [slots_ref, slots_ref, update_self]
            exact Block.word_setWord_of_ne _ hji _
          · exact slots_update_ref hx _ _

/-- Linking a block keeps the number of inode blocks and the sizes of the files. -/
theorem SlotAt.linkDisk_sizes {b : ℕ} (hw : Wf N d h X) (hs : SlotAt d ino p c i)
    (hv : Position (inodeBlocks d) h (.inode ino) p) (hb : inodeBlocks d < b) (blk : Block) :
    inodeBlocks (linkDisk d c i b blk) = inodeBlocks d ∧
      ∀ ino', ino' < 64 * inodeBlocks d →
        fileSize (linkDisk d c i b blk) ino' = fileSize d ino' := by
  have hc := hs.lt hw hv
  have hn : inodeBlocks (update d c ((d c).setWord i b)) = inodeBlocks d :=
    inodeBlocks_update (by omega) _
  refine ⟨by rw [linkDisk, inodeBlocks_update (by omega), hn], fun ino' hino' => ?_⟩
  rw [linkDisk, fileSize_update (by rw [hn]; exact hb) _ (by rw [hn]; exact hino')]
  rcases hs with ⟨rfl, rfl, rfl⟩ | ⟨q, rfl, rfl, hc0⟩
  · rw [fileSize, fileSize]
    by_cases hdiv : ino' / 64 = ino / 64
    · rw [hdiv, update_self]
      exact Block.word_setWord_of_ne _ (Block.rootIdx_ne_nblocksIdx _ _).symm _
    · rw [update_of_ne (by omega)]
  · exact fileSize_update (hw.node_lt (position_closed _ _ _ _ _ hv) hc0).1 _ hino'

end Slot

/-! ### Linking a block into a hole -/

/-- The disks `d` and `d'` store the same data, except possibly at the position `p` of the bottom
level of the tree of `ino`. -/
structure SameExcept (h : ℕ → ℕ) (ino : ℕ) (p : List (Fin 128)) (d d' : Disk) : Prop where
  blocks : inodeBlocks d' = inodeBlocks d
  size : ∀ ino', ino' < 64 * inodeBlocks d → fileSize d' ino' = fileSize d ino'
  nodes : ∀ ino' p', Position (inodeBlocks d) h (.inode ino') p' → p'.length = h ino' →
    ¬ (ino' = ino ∧ p' = p) → node (slots d') (.inode ino') p' = node (slots d) (.inode ino') p' ∧
      (node (slots d) (.inode ino') p' ≠ 0 →
        d' (node (slots d) (.inode ino') p') =
          d (node (slots d) (.inode ino') p'))

theorem SameExcept.refl (h : ℕ → ℕ) (ino : ℕ) (p : List (Fin 128)) (d : Disk) :
    SameExcept h ino p d d := ⟨rfl, fun _ _ => rfl, fun _ _ _ _ _ => ⟨rfl, fun _ => rfl⟩⟩

theorem SameExcept.trans {h : ℕ → ℕ} {ino : ℕ} {p : List (Fin 128)} {d₁ d₂ d₃ : Disk}
    (h₁ : SameExcept h ino p d₁ d₂) (h₂ : SameExcept h ino p d₂ d₃) : SameExcept h ino p d₁ d₃ := by
  have hb := h₁.blocks
  refine ⟨h₂.blocks.trans hb, ?_, ?_⟩
  · intro ino' hino'
    rw [h₂.size ino' (by rw [hb]; exact hino'), h₁.size ino' hino']
  · intro ino' p' hv hlen hne
    obtain ⟨hn₁, hk₁⟩ := h₁.nodes ino' p' hv hlen hne
    obtain ⟨hn₂, hk₂⟩ := h₂.nodes ino' p' (by rw [hb]; exact hv) hlen hne
    rw [hn₁] at hn₂ hk₂
    exact ⟨hn₂, fun h0 => (hk₂ h0).trans (hk₁ h0)⟩

/-- Nothing is excepted, if the position is not one of the bottom level. -/
theorem SameExcept.sameData {h : ℕ → ℕ} {ino : ℕ} {p : List (Fin 128)} {d d' : Disk}
    (hexc : SameExcept h ino p d d') (hp : p.length ≠ h ino) : SameData d h d' h := by
  have hne : ∀ ino' off, ¬ (ino' = ino ∧ digits 128 (h ino') off = p) := by
    rintro ino' off ⟨rfl, rfl⟩
    exact hp (length_digits _ _)
  refine ⟨hexc.blocks, hexc.size, ?_, ?_⟩
  · intro ino' off hino'
    rw [dataAt, dataAt, (hexc.nodes ino' _ (position_digits hino' off) (length_digits _ _)
      (hne ino' off)).1]
  · intro ino' off hino' h0
    rw [dataAt] at h0 ⊢
    by_cases hlt : off < 128 ^ h ino'
    · rw [if_pos hlt] at h0 ⊢
      exact (hexc.nodes ino' _ (position_digits hino' off) (length_digits _ _) (hne ino' off)).2 h0
    · rw [if_neg hlt] at h0
      exact absurd rfl h0

/-- Taking a block from the free list changes no data at all. -/
theorem Wf.alloc_sameExcept {N : ℕ} {d : Disk} {h : ℕ → ℕ} (hw : Wf N d h ∅)
    (hne : (d 0).freeList ≠ 0) (ino : ℕ) (p : List (Fin 128)) :
    SameExcept h ino p d (allocDisk d) := by
  have hs := hw.alloc_sameData hne
  exact ⟨hs.blocks, hs.size, fun ino' p' hv _ _ =>
    ⟨hw.alloc_node hne hv, (hw.alloc_keeps hne hv).2⟩⟩

/-- Taking a block from the free list leaves the references of the trees where they are. -/
theorem Wf.alloc_slotAt {N : ℕ} {d : Disk} {h : ℕ → ℕ} (hw : Wf N d h ∅)
    (hne : (d 0).freeList ≠ 0) {ino : ℕ} {p : List (Fin 128)} {c : ℕ} {i : Fin 128}
    (hs : SlotAt d ino p c i) (hv : Position (inodeBlocks d) h (.inode ino) p) :
    Wf N (allocDisk d) h {allocNo d} ∧ SlotAt (allocDisk d) ino p c i ∧ allocDisk d c = d c ∧
      Position (inodeBlocks (allocDisk d)) h (.inode ino) p := by
  obtain ⟨hw₁, hn₁⟩ := hw.alloc hne
  rcases hs with ⟨rfl, rfl, rfl⟩ | ⟨q, rfl, rfl, hc⟩
  · exact ⟨hw₁, Or.inl ⟨rfl, rfl, rfl⟩, (hw.alloc_keeps hne hv).1, by rw [hn₁]; exact hv⟩
  · have hq := position_closed _ _ _ _ _ hv
    exact ⟨hw₁, Or.inr ⟨q, rfl, hw.alloc_node hne hq, hc⟩, (hw.alloc_keeps hne hq).2 hc,
      by rw [hn₁]; exact hv⟩

section Link

variable {N : ℕ} {d : Disk} {h : ℕ → ℕ} {ino b : ℕ} {p : List (Fin 128)} {c : ℕ} {i : Fin 128}
  {blk : Block}

/-- A block that is not linked does not store a reference of a tree. -/
theorem SlotAt.ne_detached (hw : Wf N d h {b}) (hs : SlotAt d ino p c i)
    (hv : Position (inodeBlocks d) h (.inode ino) p) : c ≠ b := by
  have hb := hw.part.sub (Set.mem_singleton b)
  have hlt : inodeBlocks d < b := hb.1
  rcases hs.cases hw hv with hc | ⟨q, hq, rfl, hc0, -, -⟩
  · omega
  · intro he
    exact (hw.part.mem hq hc0).2 he

/-- The slot that is filled, as `Egos/PointerForest.lean` wants it: it was null, it now refers to
`b`, nothing stands below `b`, and no other slot has changed. -/
theorem Wf.exists_linkSlot (hw : Wf N d h {b}) (hs : SlotAt d ino p c i)
    (hv : Position (inodeBlocks d) h (.inode ino) p) (h0 : (d c).word i = 0)
    (hnew : p.length < h ino → ∀ j, blk.word j = 0) :
    ∃ s, Located (slots d) s (.inode ino) p ∧ slots d s = 0 ∧
      slots (linkDisk d c i b blk) s = b ∧
      (∀ j, Position (inodeBlocks d) h (.inode ino) (p ++ [j]) →
        slots (linkDisk d c i b blk) (.ref b j) = 0) ∧
      ∀ t, t ≠ s → (∀ j, t ≠ .ref b j) →
        (∃ r q, Position (inodeBlocks d) h r q ∧ Located (slots d) t r q) →
        slots (linkDisk d c i b blk) t = slots d t := by
  have hb := hw.part.sub (Set.mem_singleton b)
  obtain ⟨s, hloc, hval, hval', hrest⟩ :=
    hs.exists_located hw hv hb.1 hb.2 (hs.ne_detached hw hv) blk
  refine ⟨s, hloc, hval.trans h0, hval', fun j hvj => ?_, hrest⟩
  have hlen : (p ++ [j]).length ≤ h ino := hvj.2
  simp only [List.length_append, List.length_singleton] at hlen
  rw [slots_ref, linkDisk, update_self]
  exact hnew (by omega) j

/-- The nodes after a block has been linked into a hole. -/
theorem Wf.link_node (hw : Wf N d h {b}) (hs : SlotAt d ino p c i)
    (hv : Position (inodeBlocks d) h (.inode ino) p) (h0 : (d c).word i = 0)
    (hnew : p.length < h ino → ∀ j, blk.word j = 0) :
    node (slots (linkDisk d c i b blk)) (.inode ino) p = b ∧
      ∀ r q, Position (inodeBlocks d) h r q → ¬ (r = .inode ino ∧ q = p) →
        node (slots (linkDisk d c i b blk)) r q = node (slots d) r q := by
  obtain ⟨s, hloc, hval, hval', hbelow, hrest⟩ := hw.exists_linkSlot hs hv h0 hnew
  have key := hw.part.node_link (slots (linkDisk d c i b blk)) (position_closed _ _) hloc hv hval
    (by rw [hval']; rfl) (by rw [hval']; exact hbelow) (by rw [hval']; exact hrest)
  rw [hval'] at key
  exact key

/-- **Linking a block into a hole** of a tree.  Above the bottom level, the new block has to be
empty. -/
theorem Wf.link (hw : Wf N d h {b}) (hs : SlotAt d ino p c i)
    (hv : Position (inodeBlocks d) h (.inode ino) p) (h0 : (d c).word i = 0)
    (hnew : p.length < h ino → ∀ j, blk.word j = 0) : Wf N (linkDisk d c i b blk) h ∅ := by
  have hb := hw.part.sub (Set.mem_singleton b)
  have hn := (hs.linkDisk_sizes hw hv hb.1 blk).1
  obtain ⟨s, hloc, hval, hval', hbelow, hrest⟩ := hw.exists_linkSlot hs hv h0 hnew
  have key := hw.part.link (slots (linkDisk d c i b blk)) (position_closed _ _) hloc hv hval
    (by rw [hval']; rfl) (by rw [hval']; exact hbelow) (by rw [hval']; exact hrest)
  rw [hval', Set.sdiff_self] at key
  refine ⟨by rw [hn]; exact hw.room, hw.bound, by rw [hn]; exact hw.inodes, ?_⟩
  rw [hn]
  exact key

/-- Linking a block on the way to the position `p'` changes no data elsewhere. -/
theorem Wf.link_sameExcept (hw : Wf N d h {b}) (hs : SlotAt d ino p c i)
    (hv : Position (inodeBlocks d) h (.inode ino) p) (h0 : (d c).word i = 0)
    (hnew : p.length < h ino → ∀ j, blk.word j = 0) {p' : List (Fin 128)}
    (hp' : p.length = h ino → p' = p) : SameExcept h ino p' d (linkDisk d c i b blk) := by
  have hb := hw.part.sub (Set.mem_singleton b)
  have hlt : inodeBlocks d < b := hb.1
  obtain ⟨hn, hsize⟩ := hs.linkDisk_sizes hw hv hlt blk
  obtain ⟨-, hoff⟩ := hw.link_node hs hv h0 hnew
  refine ⟨hn, hsize, fun ino' q hvq hlen hne => ⟨?_, fun hq0 => ?_⟩⟩
  · refine hoff _ q hvq ?_
    rintro ⟨hr, rfl⟩
    rw [Root.inode.injEq] at hr
    subst hr
    exact hne ⟨rfl, (hp' hlen).symm⟩
  · have hqb : node (slots d) (.inode ino') q ≠ b := (hw.part.mem hvq hq0).2
    rw [linkDisk, update_of_ne hqb,
      update_of_ne (hs.ne_bottom hw hv hvq hlen hq0)]

/-- Linking a block does not touch the free list. -/
theorem Wf.link_sameFree (hw : Wf N d h {b}) (hs : SlotAt d ino p c i)
    (hv : Position (inodeBlocks d) h (.inode ino) p) (h0 : (d c).word i = 0)
    (hnew : p.length < h ino → ∀ j, blk.word j = 0) : SameFree (linkDisk d c i b blk) d := by
  have hb := hw.part.sub (Set.mem_singleton b)
  have hlt : inodeBlocks d < b := hb.1
  have hc := hs.lt hw hv
  obtain ⟨-, hoff⟩ := hw.link_node hs hv h0 hnew
  refine ⟨?_, fun q hq hq0 => ?_⟩
  · rw [linkDisk, update_of_ne (by omega), update_of_ne (by omega)]
  · have hvq : Position (inodeBlocks d) h .free q := hq
    rw [hoff .free q hvq (by simp)] at hq0 ⊢
    have hmem := hw.part.mem hvq hq0
    have hqc : node (slots d) .free q ≠ c := by
      intro he
      rcases hs.cases hw hv with hle | ⟨q', hq', hqc', -, -, -⟩
      · exact absurd hmem.1.1 (by omega)
      · have := (hw.part.inj hvq hq' hq0 (he.trans hqc'.symm)).1
        simp at this
    rw [linkDisk, update_of_ne fun he => hmem.2 he, update_of_ne hqc]

end Link

/-! ### Growing a tree -/

section Push

variable {N : ℕ} {d : Disk} {h : ℕ → ℕ} {ino b : ℕ}

/-- The disk after the indirect block `b` has been put above the root of the tree of `ino`. -/
def pushDisk (d : Disk) (ino b : ℕ) : Disk :=
  linkDisk d (1 + ino / 64) (Block.rootIdx (Fin.ofNat 64 ino)) b
    (nullBlock.setWord 0 ((d (1 + ino / 64)).inodeRoot (Fin.ofNat 64 ino)))

/-- The heights after the tree of `ino` has grown by `k` levels. -/
def growHeight (h : ℕ → ℕ) (ino k : ℕ) : ℕ → ℕ := update h ino (h ino + k)

theorem slotAt_root (d : Disk) (ino : ℕ) :
    SlotAt d ino [] (1 + ino / 64) (Block.rootIdx (Fin.ofNat 64 ino)) := Or.inl ⟨rfl, rfl, rfl⟩

/-- The slots after the tree of `ino` has grown, as `Egos/PointerForest.lean` wants them. -/
theorem Wf.push_slots (hw : Wf N d h {b}) (hino : ino < 64 * inodeBlocks d) :
    slots (pushDisk d ino b) (.root (.inode ino)) = b ∧
      slots (pushDisk d ino b) (.ref b 0) = slots d (.root (.inode ino)) ∧
      (∀ j, j ≠ 0 → slots (pushDisk d ino b) (.ref b j) = 0) ∧
      (∀ r, r ≠ .inode ino → Position (inodeBlocks d) h r [] →
        slots (pushDisk d ino b) (.root r) = slots d (.root r)) ∧
      ∀ r p i, Position (inodeBlocks d) h r (p ++ [i]) → node (slots d) r p ≠ 0 →
        slots (pushDisk d ino b) (.ref (node (slots d) r p) i) =
          slots d (.ref (node (slots d) r p) i) := by
  have hb := hw.part.sub (Set.mem_singleton b)
  have hv : Position (inodeBlocks d) h (.inode ino) [] := position_inode hino (Nat.zero_le _)
  have hs := slotAt_root d ino
  obtain ⟨s, hloc, -, hval', hrest⟩ := hs.exists_located hw hv hb.1 hb.2 (hs.ne_detached hw hv)
    (nullBlock.setWord 0 ((d (1 + ino / 64)).inodeRoot (Fin.ofNat 64 ino)))
  have hsr : s = .root (.inode ino) := hloc.unique .root
  subst hsr
  refine ⟨hval', ?_, ?_, ?_, ?_⟩
  · rw [slots_ref, pushDisk, linkDisk, update_self, slots_inode]
    exact Block.word_setWord_self _ _ (Block.word_lt _ _)
  · intro j hj
    rw [slots_ref, pushDisk, linkDisk, update_self, Block.word_setWord_of_ne _ hj,
      Block.word_nullBlock]
  · intro r hr hvr
    exact hrest _ (fun he => hr (Slot.root.inj he)) (fun j => by simp) ⟨r, [], hvr, .root⟩
  · intro r p i hvp h0
    refine hrest _ (by simp) (fun j he => ?_) ⟨r, p ++ [i], hvp, .ref p i h0⟩
    rw [Slot.ref.injEq] at he
    exact (hw.part.mem (position_closed _ _ _ _ _ hvp) h0).2 he.1

/-- The positions after the tree of `ino` has grown: those of the old tree are below the first
reference of the new root. -/
theorem position_growHeight (n : ℕ) (h : ℕ → ℕ) (ino : ℕ) :
    (∀ p, Position n (growHeight h ino 1) (.inode ino) (0 :: p) ↔ Position n h (.inode ino) p) ∧
      ∀ r p, r ≠ .inode ino → (Position n (growHeight h ino 1) r p ↔ Position n h r p) := by
  constructor
  · intro p
    simp [Position, growHeight]
  · intro r p hr
    cases r with
    | free => rfl
    | inode ino' =>
        have hne : ino' ≠ ino := fun he => hr (by rw [he])
        simp only [Position, growHeight, update_of_ne hne]

/-- **Putting an indirect block above the root of a tree** makes it grow by one level. -/
theorem Wf.push (hw : Wf N d h {b}) (hino : ino < 64 * inodeBlocks d) :
    Wf N (pushDisk d ino b) (growHeight h ino 1) ∅ := by
  have hb := hw.part.sub (Set.mem_singleton b)
  have hv : Position (inodeBlocks d) h (.inode ino) [] := position_inode hino (Nat.zero_le _)
  obtain ⟨hroot, hdown, hzero, hroots, hrefs⟩ := hw.push_slots hino
  obtain ⟨hvr, hvo⟩ := position_growHeight (inodeBlocks d) h ino
  have hn : inodeBlocks (pushDisk d ino b) = inodeBlocks d :=
    ((slotAt_root d ino).linkDisk_sizes hw hv hb.1 _).1
  have key := hw.part.push (slots (pushDisk d ino b)) 0 (position_closed _ _)
    (by rw [hroot]; rfl) (by rw [hroot]; exact hdown) hroots hrefs hvr
    (position_inode hino (Nat.zero_le _)) hvo
    (fun j p hj _ hne => absurd (by rw [hroot]; exact hzero j hj) hne)
    (fun j k hj _ hne _ => absurd (by rw [hroot]; exact hzero j hj) hne)
  have hempty : ({b} : Set ℕ) \ {x | x = slots (pushDisk d ino b) (.root (.inode ino)) ∨
      ∃ j, j ≠ 0 ∧ Position (inodeBlocks d) (growHeight h ino 1) (.inode ino) [j] ∧
        slots (pushDisk d ino b)
          (.ref (slots (pushDisk d ino b) (.root (.inode ino))) j) = x} = ∅ := by
    rw [Set.eq_empty_iff_forall_notMem]
    rintro x ⟨hx, hx'⟩
    exact hx' (Or.inl (by rw [hroot]; exact hx))
  rw [hempty] at key
  refine ⟨by rw [hn]; exact hw.room, hw.bound, by rw [hn]; exact hw.inodes, ?_⟩
  rw [hn]
  exact key

/-- **A tree that grows keeps its data**: the offsets that fit in the old tree are below the first
reference, and the others are holes before and after. -/
theorem Wf.push_sameData (hw : Wf N d h {b}) (hino : ino < 64 * inodeBlocks d) :
    SameData d h (pushDisk d ino b) (growHeight h ino 1) := by
  have hb := hw.part.sub (Set.mem_singleton b)
  have hb0 : b ≠ 0 := hw.part.ne_zero (Set.mem_singleton b)
  have hs := slotAt_root d ino
  have hv : Position (inodeBlocks d) h (.inode ino) [] := position_inode hino (Nat.zero_le _)
  obtain ⟨hroot, hdown, hzero, hroots, hrefs⟩ := hw.push_slots hino
  obtain ⟨hn, hsize⟩ := hs.linkDisk_sizes hw hv hb.1
    (nullBlock.setWord 0 ((d (1 + ino / 64)).inodeRoot (Fin.ofNat 64 ino)))
  obtain ⟨hdn, hoth⟩ := Partition.node_push (position_closed (inodeBlocks d) h)
    (by rw [hroot]; exact hb0) (by rw [hroot]; exact hdown) hroots hrefs
  refine ⟨hn, hsize, ?_, ?_⟩
  · intro ino' off hino'
    by_cases he : ino' = ino
    · subst he
      have hh : growHeight h ino' 1 ino' = h ino' + 1 := by simp [growHeight]
      rw [dataAt, dataAt, hh]
      by_cases hlt : off < 128 ^ h ino'
      · have hlt' : off < 128 ^ (h ino' + 1) := by
          rw [Nat.pow_succ]
          omega
        rw [if_pos hlt, if_pos hlt', digits_succ_of_lt hlt, hdn _ (position_digits hino' off)]
      · rw [if_neg hlt]
        by_cases hlt' : off < 128 ^ (h ino' + 1)
        · rw [if_pos hlt', digits_succ, node, walk_cons_of_ne (by rw [hroot]; exact hb0), hroot,
            hzero _ (head_ne_zero (by omega) hlt'), walk_zero]
        · rw [if_neg hlt']
    · have hr : Root.inode ino' ≠ Root.inode ino := fun h' => he (Root.inode.inj h')
      have hh : growHeight h ino 1 ino' = h ino' := update_of_ne he _ _
      rw [dataAt, dataAt, hh, hoth _ _ hr (position_digits hino' off)]
  · intro ino' off hino' h0
    rw [dataAt] at h0 ⊢
    by_cases hlt : off < 128 ^ h ino'
    · rw [if_pos hlt] at h0 ⊢
      have hpos := position_digits (h := h) hino' off
      have hne : node (slots d) (.inode ino') (digits 128 (h ino') off) ≠ b :=
        (hw.part.mem hpos h0).2
      rw [pushDisk, linkDisk, update_of_ne hne,
        update_of_ne (hs.ne_bottom hw hv hpos (length_digits _ _) h0)]
    · rw [if_neg hlt] at h0
      exact absurd rfl h0

end Push

/-! ### Storing a size, and overwriting data -/

section Store

variable {N : ℕ} {d : Disk} {h : ℕ → ℕ} {X : Set ℕ} {ino : ℕ}

/-- A size is not a reference. -/
theorem slots_sizeDisk {r : Root} {p : List (Fin 128)} {s : Slot Root (Fin 128) ℕ} (v : ℕ)
    (hw : Wf N d h X) (hino : ino < 64 * inodeBlocks d) (hv : Position (inodeBlocks d) h r p)
    (hloc : Located (slots d) s r p) : slots (sizeDisk d ino v) s = slots d s := by
  cases hloc with
  | root =>
      cases r with
      | free => rw [slots_free, slots_free, sizeDisk, update_of_ne (by omega)]
      | inode ino' =>
          rw [slots_inode, slots_inode, sizeDisk]
          by_cases hdiv : ino' / 64 = ino / 64
          · rw [hdiv, update_self]
            exact Block.word_setWord_of_ne _ (Block.rootIdx_ne_nblocksIdx _ _) _
          · rw [update_of_ne (by omega)]
  | ref q i h0 =>
      have := hw.node_lt (position_closed _ _ _ _ _ hv) h0
      exact slots_update_ref (by omega) _ _

theorem inodeBlocks_sizeDisk (d : Disk) (ino v : ℕ) :
    inodeBlocks (sizeDisk d ino v) = inodeBlocks d := inodeBlocks_update (by omega) _

theorem fileSize_sizeDisk_self (d : Disk) (ino : ℕ) {v : ℕ} (hv : v < 2 ^ 32) :
    fileSize (sizeDisk d ino v) ino = v := by
  rw [fileSize, sizeDisk, update_self]
  exact Block.word_setWord_self _ _ hv

theorem fileSize_sizeDisk_of_ne (d : Disk) {ino ino' : ℕ} (hne : ino' ≠ ino) (v : ℕ) :
    fileSize (sizeDisk d ino v) ino' = fileSize d ino' := by
  rw [fileSize, fileSize, sizeDisk]
  by_cases hdiv : ino' / 64 = ino / 64
  · rw [hdiv, update_self]
    exact Block.word_setWord_of_ne _
      (fun he => ofNat_ne_of_ne hne hdiv (Block.nblocksIdx_inj he)) _
  · rw [update_of_ne (by omega)]

theorem sizeDisk_fileSize (d : Disk) (ino : ℕ) : sizeDisk d ino (fileSize d ino) = d := by
  have hself : (d (1 + ino / 64)).setWord (Block.nblocksIdx (Fin.ofNat 64 ino)) (fileSize d ino) =
      d (1 + ino / 64) := Block.setWord_word _ _
  rw [sizeDisk, hself, update_eq_self]

/-- **Storing a size** changes no reference. -/
theorem Wf.size (hw : Wf N d h X) (hino : ino < 64 * inodeBlocks d) (v : ℕ) :
    Wf N (sizeDisk d ino v) h X := by
  have hn := inodeBlocks_sizeDisk d ino v
  refine ⟨by rw [hn]; exact hw.room, hw.bound, by rw [hn]; exact hw.inodes, ?_⟩
  rw [hn]
  exact hw.part.congr (position_closed _ _) fun s r p hv hloc => slots_sizeDisk v hw hino hv hloc

/-- Storing a size changes no data. -/
theorem Wf.size_content (hw : Wf N d h X) (hino : ino < 64 * inodeBlocks d) (v : ℕ) {ino' : ℕ}
    (hino' : ino' < 64 * inodeBlocks d) (off : ℕ) :
    dataAt (sizeDisk d ino v) h ino' off = dataAt d h ino' off ∧
      contentAt (sizeDisk d ino v) h ino' off = contentAt d h ino' off := by
  have hpos := position_digits (h := h) hino' off
  have hnode := node_congr (Position (inodeBlocks d) h) (position_closed _ _)
    (fun s r p hv hloc => slots_sizeDisk v hw hino hv hloc) _ _ hpos
  have hdata : dataAt (sizeDisk d ino v) h ino' off = dataAt d h ino' off := by
    rw [dataAt, dataAt, hnode]
  refine ⟨hdata, ?_⟩
  rw [contentAt, contentAt, hdata]
  by_cases h0 : dataAt d h ino' off = 0
  · rw [if_pos h0, if_pos h0]
  · rw [if_neg h0, if_neg h0, sizeDisk, update_of_ne]
    rw [dataAt] at h0 ⊢
    by_cases hlt : off < 128 ^ h ino'
    · rw [if_pos hlt] at h0 ⊢
      have := hw.node_lt hpos h0
      omega
    · rw [if_neg hlt] at h0
      exact absurd rfl h0

/-- **Overwriting a block of the bottom level** changes no reference. -/
theorem Wf.store (hw : Wf N d h X) {p : List (Fin 128)}
    (hv : Position (inodeBlocks d) h (.inode ino) p) (hlen : p.length = h ino)
    (h0 : node (slots d) (.inode ino) p ≠ 0) (blk : Block) :
    Wf N (update d (node (slots d) (.inode ino) p) blk) h X ∧
      ∀ r q, Position (inodeBlocks d) h r q →
        node (slots (update d (node (slots d) (.inode ino) p) blk)) r q =
          node (slots d) r q := by
  have hlt := hw.node_lt hv h0
  have hn := inodeBlocks_update h0 blk (d := d)
  have hslots : ∀ s r q, Position (inodeBlocks d) h r q → Located (slots d) s r q →
      slots (update d (node (slots d) (.inode ino) p) blk) s = slots d s := by
    intro s r q hvq hloc
    cases hloc with
    | root => exact slots_update_root hlt.1 _ hvq
    | ref q i hq0 =>
        refine slots_update_ref (fun he => ?_) _ _
        -- a node with something below it is not at the bottom level
        obtain ⟨rfl, rfl⟩ := hw.part.inj (position_closed _ _ _ _ _ hvq) hv hq0 he
        have := hvq.2
        simp only [List.length_append, List.length_singleton] at this
        omega
  refine ⟨⟨by rw [hn]; exact hw.room, hw.bound, by rw [hn]; exact hw.inodes, ?_⟩, ?_⟩
  · rw [hn]
    exact hw.part.congr (position_closed _ _) hslots
  · exact node_congr _ (position_closed _ _) hslots

end Store

end Egos
