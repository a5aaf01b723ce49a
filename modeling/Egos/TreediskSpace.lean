/-
**How much fits into a file system.**

A file takes one block for each offset that has been written, and the indirect blocks above them.
When a tree grows, `treedisk_write` puts indirect blocks above the root one at a time, also if the
root is still a hole, so the first indirect block of each level is always there.  Here this is made
exact: the blocks that a file takes depend on the set of the offsets that have been written, and not
on the order of the writes, and `treedisk_write` runs out of space exactly when the blocks of all
files are more than the file system has.

Main definitions:

* `Egos.TreeNode`, `Egos.usedNodes` — the places of the trees at which there is a block;
* `Egos.levelNodes`, `Egos.blocksNeeded` — the blocks of a file, from the offsets written;
* `Egos.offsetsOf` — the offsets that a run of writes writes to an inode.

Main results:

* `Egos.Wf.ncard_usedNodes` — when the free list is empty, every block is in a tree;
* `Egos.growLoop_space`, `Egos.writeWalk_space` — the blocks that the loops of `treedisk_write`
  take;
* `Egos.writes_fit_iff` — **writes go through if and only if their blocks fit**, in any order.
-/

import Egos.TreediskFiles
import Mathlib.Algebra.BigOperators.Group.Finset.Sigma
import Mathlib.Data.Set.Card
import Mathlib.Order.Interval.Finset.Nat
import Mathlib.Order.Lattice.Nat

set_option autoImplicit false

namespace Egos

open Function (update update_eq_self update_eq_self_iff update_of_ne update_self)
open PointerForest FixedDigits Hoare

/-! ### The places of the trees -/

/-- A place in a tree: the inode, the level above the data blocks, and the index in the level.  The
place `v` of the level `k` is above the offsets from `128 ^ k * v` up to `128 ^ k * (v + 1)`. -/
abbrev TreeNode : Type := (_ : ℕ) × (_ : ℕ) × ℕ

/-- The path to a place in a tree of the height that `h` gives. -/
def nodePath (h : ℕ → ℕ) (t : TreeNode) : List (Fin 128) := digits 128 (h t.1 - t.2.1) t.2.2

/-- The places at which there is a block. -/
def usedNodes (d : Disk) (h : ℕ → ℕ) : Set TreeNode :=
  {t | (t.1 < 64 * inodeBlocks d ∧ t.2.1 ≤ h t.1 ∧ t.2.2 < 128 ^ (h t.1 - t.2.1)) ∧
    node (slots d) (.inode t.1) (nodePath h t) ≠ 0}

theorem position_nodePath {n : ℕ} {h : ℕ → ℕ} {t : TreeNode} (ht : t.1 < 64 * n) :
    Position n h (.inode t.1) (nodePath h t) :=
  position_inode ht (by rw [nodePath, length_digits]; omega)

/-- The path determines the place. -/
theorem nodePath_inj {h : ℕ → ℕ} {t t' : TreeNode} (hino : t.1 = t'.1)
    (ht : t.2.1 ≤ h t.1 ∧ t.2.2 < 128 ^ (h t.1 - t.2.1))
    (ht' : t'.2.1 ≤ h t'.1 ∧ t'.2.2 < 128 ^ (h t'.1 - t'.2.1))
    (hpath : nodePath h t = nodePath h t') : t = t' := by
  obtain ⟨ino, k, v⟩ := t
  obtain ⟨ino', k', v'⟩ := t'
  obtain rfl : ino = ino' := hino
  dsimp only at ht ht'
  have hlen := congrArg List.length hpath
  rw [nodePath, nodePath, length_digits, length_digits] at hlen
  dsimp only at hlen
  obtain rfl : k = k' := by omega
  obtain rfl : v = v' := digits_inj ht.2 ht'.2 hpath
  rfl

section Count

variable {N : ℕ} {d : Disk} {h : ℕ → ℕ} {X : Set ℕ}

/-- No block is at two places. -/
theorem Wf.usedNodes_injOn (hw : Wf N d h X) :
    Set.InjOn (fun t : TreeNode => node (slots d) (.inode t.1) (nodePath h t)) (usedNodes d h) := by
  rintro t ⟨ht, h0⟩ t' ⟨ht', -⟩ heq
  obtain ⟨hr, hpath⟩ := hw.part.inj (position_nodePath ht.1) (position_nodePath ht'.1) h0 heq
  exact nodePath_inj (Root.inode.inj hr) ht.2 ht'.2 hpath

theorem Wf.usedNodes_mapsTo (hw : Wf N d h X) :
    (fun t : TreeNode => node (slots d) (.inode t.1) (nodePath h t)) '' usedNodes d h ⊆
      Set.Ioo (inodeBlocks d) N := by
  rintro b ⟨t, ⟨ht, h0⟩, rfl⟩
  exact hw.node_lt (position_nodePath ht.1) h0

theorem Wf.usedNodes_finite (hw : Wf N d h X) : (usedNodes d h).Finite :=
  Set.Finite.of_finite_image ((Set.finite_Ioo _ _).subset hw.usedNodes_mapsTo) hw.usedNodes_injOn

theorem ncard_Ioo (n N : ℕ) : (Set.Ioo n N).ncard = N - n - 1 := by
  rw [← Finset.coe_Ioo, Set.ncard_coe_finset, Nat.card_Ioo]

/-- There are no more blocks in the trees than the file system has. -/
theorem Wf.ncard_usedNodes_le (hw : Wf N d h X) :
    (usedNodes d h).ncard ≤ N - inodeBlocks d - 1 := by
  rw [← hw.usedNodes_injOn.ncard_image, ← ncard_Ioo]
  exact Set.ncard_le_ncard hw.usedNodes_mapsTo (Set.finite_Ioo _ _)

/-- **When the free list is empty, every block is in a tree.** -/
theorem Wf.ncard_usedNodes (hw : Wf N d h ∅) (hempty : (d 0).freeList = 0) :
    (usedNodes d h).ncard = N - inodeBlocks d - 1 := by
  rw [← hw.usedNodes_injOn.ncard_image, ← ncard_Ioo]
  refine congrArg Set.ncard (Set.Subset.antisymm hw.usedNodes_mapsTo ?_)
  intro b hb
  obtain ⟨r, p, hv, rfl⟩ := hw.part.cover hb (Set.notMem_empty b)
  have hlt := hb.1
  have hb0 : node (slots d) r p ≠ 0 := by omega
  cases r with
  | free =>
      -- the root of the free list is null
      have hroot : node (slots d) .free [] = 0 := hempty
      exact absurd (node_append_of_zero hroot p) hb0
  | inode ino =>
      obtain ⟨v, hv', hp⟩ := exists_digits p
      have hlen : p.length ≤ h ino := hv.2
      have hsub : h ino - (h ino - p.length) = p.length := by omega
      have hpath : nodePath h ⟨ino, h ino - p.length, v⟩ = p := by
        rw [nodePath, hsub, hp]
      refine ⟨⟨ino, h ino - p.length, v⟩, ⟨⟨hv.1, Nat.sub_le _ _, ?_⟩, ?_⟩, ?_⟩
      · rw [hsub]
        exact hv'
      · rw [hpath]
        exact hb0
      · exact congrArg _ hpath

/-- An empty free list, when there is a block to come. -/
theorem Wf.full (hw : Wf N d h ∅) (hempty : (d 0).freeList = 0) {S : Set TreeNode}
    (hfin : S.Finite) (hsub : usedNodes d h ⊆ S) {t : TreeNode} (ht : t ∈ S)
    (hnew : t ∉ usedNodes d h) : N - inodeBlocks d - 1 < S.ncard := by
  rw [← hw.ncard_usedNodes hempty]
  exact Set.ncard_lt_ncard ⟨hsub, fun hS => hnew (hS ht)⟩ hfin

end Count

/-! ### The places after an update of the disk -/

section Updates

variable {N : ℕ} {d d' : Disk} {h : ℕ → ℕ} {X : Set ℕ}

/-- The same nodes are at the same places. -/
theorem usedNodes_congr (hn : inodeBlocks d' = inodeBlocks d)
    (hnode : ∀ ino p, Position (inodeBlocks d) h (.inode ino) p →
      node (slots d') (.inode ino) p = node (slots d) (.inode ino) p) :
    usedNodes d' h = usedNodes d h := by
  ext t
  rw [usedNodes, usedNodes, Set.mem_ofPred_eq, Set.mem_ofPred_eq, hn]
  refine and_congr_right fun ht => ?_
  rw [hnode _ _ (position_nodePath ht.1)]

theorem Wf.usedNodes_alloc (hw : Wf N d h X) (hne : (d 0).freeList ≠ 0) :
    usedNodes (allocDisk d) h = usedNodes d h :=
  usedNodes_congr (hw.alloc_insert hne).2 fun _ _ hv => hw.alloc_node hne hv

theorem Wf.usedNodes_size (hw : Wf N d h X) {ino : ℕ} (hino : ino < 64 * inodeBlocks d) (v : ℕ) :
    usedNodes (sizeDisk d ino v) h = usedNodes d h :=
  usedNodes_congr (inodeBlocks_sizeDisk d ino v) fun _ _ hv =>
    node_congr (Position (inodeBlocks d) h) (position_closed _ _)
      (fun _ _ _ hv hloc => slots_sizeDisk v hw hino hv hloc) _ _ hv

theorem Wf.usedNodes_store (hw : Wf N d h X) {ino : ℕ} {p : List (Fin 128)}
    (hv : Position (inodeBlocks d) h (.inode ino) p) (hlen : p.length = h ino)
    (h0 : node (slots d) (.inode ino) p ≠ 0) (blk : Block) :
    usedNodes (update d (node (slots d) (.inode ino) p) blk) h = usedNodes d h :=
  usedNodes_congr (inodeBlocks_update h0 blk) fun _ _ hv' => (hw.store hv hlen h0 blk).2 _ _ hv'

/-- **A block that is linked** is at one place more. -/
theorem Wf.usedNodes_link {b c : ℕ} {i : Fin 128} {blk : Block} (hw : Wf N d h {b}) {t : TreeNode}
    (ht : t.1 < 64 * inodeBlocks d ∧ t.2.1 ≤ h t.1 ∧ t.2.2 < 128 ^ (h t.1 - t.2.1))
    (hs : SlotAt d t.1 (nodePath h t) c i) (h0 : (d c).word i = 0)
    (hnew : (nodePath h t).length < h t.1 → ∀ j, blk.word j = 0) :
    usedNodes (linkDisk d c i b blk) h = insert t (usedNodes d h) := by
  have hv := position_nodePath (h := h) ht.1
  have hb := hw.part.sub (Set.mem_singleton b)
  have hb0 := hw.part.ne_zero (Set.mem_singleton b)
  have hn := (hs.linkDisk_sizes hw hv hb.1 blk).1
  obtain ⟨hat, hoff⟩ := hw.link_node hs hv h0 hnew
  ext t'
  rw [Set.mem_insert_iff]
  by_cases heq : t' = t
  · subst heq
    refine ⟨fun _ => Or.inl rfl, fun _ => ⟨by rw [hn]; exact ht, ?_⟩⟩
    rw [hat]
    exact hb0
  · rw [or_iff_right heq, usedNodes, usedNodes, Set.mem_ofPred_eq, Set.mem_ofPred_eq, hn]
    refine and_congr_right fun ht' => ?_
    rw [hoff _ _ (position_nodePath ht'.1)]
    rintro ⟨hr, hpath⟩
    exact heq (nodePath_inj (Root.inode.inj hr) ht'.2 ht.2 hpath)

/-- **A tree that grows** has a new root, and the other blocks at the same levels as before. -/
theorem Wf.usedNodes_push {b ino : ℕ} (hw : Wf N d h {b}) (hino : ino < 64 * inodeBlocks d) :
    usedNodes (pushDisk d ino b) (growHeight h ino 1) =
      insert ⟨ino, h ino + 1, 0⟩ (usedNodes d h) := by
  have hb := hw.part.sub (Set.mem_singleton b)
  have hb0 := hw.part.ne_zero (Set.mem_singleton b)
  have hv : Position (inodeBlocks d) h (.inode ino) [] := position_inode hino (Nat.zero_le _)
  have hn : inodeBlocks (pushDisk d ino b) = inodeBlocks d :=
    ((slotAt_root d ino).linkDisk_sizes hw hv hb.1 _).1
  obtain ⟨hroot, hdown, hzero, hroots, hrefs⟩ := hw.push_slots hino
  obtain ⟨hdn, hoth⟩ := Partition.node_push (position_closed (inodeBlocks d) h)
    (by rw [hroot]; exact hb0) (by rw [hroot]; exact hdown) hroots hrefs
  ext ⟨ino', k, v⟩
  rw [Set.mem_insert_iff, usedNodes, usedNodes, Set.mem_ofPred_eq, Set.mem_ofPred_eq, hn]
  dsimp only [nodePath]
  by_cases he : ino' = ino
  · subst he
    have hh : growHeight h ino' 1 ino' = h ino' + 1 := update_self _ _ _
    rw [hh]
    by_cases hk : k ≤ h ino'
    · -- an old level, below the first reference of the new root
      have hne : (⟨ino', k, v⟩ : TreeNode) ≠ ⟨ino', h ino' + 1, 0⟩ := by
        intro heq
        have hlevel : k = h ino' + 1 := congrArg (fun t : TreeNode => t.2.1) heq
        omega
      rw [or_iff_right hne, Nat.sub_add_comm hk]
      by_cases hlt : v < 128 ^ (h ino' - k)
      · have hlt' : v < 128 ^ (h ino' - k + 1) := by
          rw [Nat.pow_succ]
          omega
        have hpos : Position (inodeBlocks d) h (.inode ino') (digits 128 (h ino' - k) v) :=
          position_inode hino (by rw [length_digits]; omega)
        rw [digits_succ_of_lt hlt, hdn _ hpos]
        simp only [hlt, hlt', hk, Nat.le_succ_of_le hk]
      · refine iff_of_false ?_ fun hu => hlt hu.1.2.2
        rintro ⟨⟨-, -, hlt'⟩, h0⟩
        refine h0 ?_
        rw [digits_succ, node, walk_cons_of_ne (by rw [hroot]; exact hb0), hroot,
          hzero _ (head_ne_zero (by omega) hlt'), walk_zero]
    · constructor
      · rintro ⟨⟨-, hk', hlt⟩, -⟩
        obtain rfl : k = h ino' + 1 := by omega
        rw [Nat.sub_self, Nat.pow_zero, Nat.lt_one_iff] at hlt
        rw [hlt]
        exact Or.inl rfl
      · rintro (heq | hu)
        · have hlevel : k = h ino' + 1 := congrArg (fun t : TreeNode => t.2.1) heq
          have hindex : v = 0 := congrArg (fun t : TreeNode => t.2.2) heq
          subst hlevel hindex
          rw [Nat.sub_self, digits_zero, node_nil, hroot]
          exact ⟨⟨hino, le_rfl, Nat.one_pos⟩, hb0⟩
        · exact absurd hu.1.2.1 hk
  · have hne : (⟨ino', k, v⟩ : TreeNode) ≠ ⟨ino, h ino + 1, 0⟩ := fun heq =>
      he (congrArg (fun t : TreeNode => t.1) heq)
    have hr : Root.inode ino' ≠ Root.inode ino := fun h' => he (Root.inode.inj h')
    have hh : growHeight h ino 1 ino' = h ino' := update_of_ne he _ _
    rw [or_iff_right hne, hh]
    refine and_congr_right fun ht => ?_
    rw [hoth _ _ hr (position_inode ht.1 (by rw [length_digits]; omega))]

end Updates

/-! ### The loops of `treedisk_write` -/

/-- The new roots of a tree that grows from the height `a` to the height `b`. -/
def spine (ino a b : ℕ) : Set TreeNode := {t | t.1 = ino ∧ (a < t.2.1 ∧ t.2.1 ≤ b) ∧ t.2.2 = 0}

/-- The places on the way to an offset, from the level `n` down. -/
def way (ino off n : ℕ) : Set TreeNode := {t | t.1 = ino ∧ t.2.1 ≤ n ∧ t.2.2 = off / 128 ^ t.2.1}

theorem spine_finite (ino a b : ℕ) : (spine ino a b).Finite := by
  refine ((Finset.range (b + 1)).image fun k => (⟨ino, k, 0⟩ : TreeNode)).finite_toSet.subset ?_
  rintro ⟨ino', k, v⟩ ⟨hino, ⟨-, hk⟩, hv⟩
  obtain rfl : ino' = ino := hino
  obtain rfl : v = 0 := hv
  exact Finset.mem_coe.2 (Finset.mem_image.2 ⟨k, Finset.mem_range_succ_iff.2 hk, rfl⟩)

theorem way_finite (ino off n : ℕ) : (way ino off n).Finite := by
  refine ((Finset.range (n + 1)).image fun k =>
    (⟨ino, k, off / 128 ^ k⟩ : TreeNode)).finite_toSet.subset ?_
  rintro ⟨ino', k, v⟩ ⟨hino, hk, hv⟩
  obtain rfl : ino' = ino := hino
  obtain rfl : v = off / 128 ^ k := hv
  exact Finset.mem_coe.2 (Finset.mem_image.2 ⟨k, Finset.mem_range_succ_iff.2 hk, rfl⟩)

theorem spine_self (ino a : ℕ) : spine ino a a = ∅ := by
  refine Set.eq_empty_iff_forall_notMem.2 ?_
  rintro t ⟨-, ⟨hlt, hle⟩, -⟩
  omega

/-- The first new root, and then the others. -/
theorem insert_union_spine (S : Set TreeNode) (ino a k : ℕ) :
    insert ⟨ino, a + 1, 0⟩ S ∪ spine ino (a + 1) (a + 1 + k) = S ∪ spine ino a (a + (k + 1)) := by
  ext ⟨ino', l, v⟩
  simp only [spine, Set.mem_union, Set.mem_insert_iff, Set.mem_ofPred_eq, Sigma.mk.injEq,
    heq_eq_eq]
  constructor
  · rintro ((⟨rfl, rfl, rfl⟩ | hS) | ⟨rfl, hl, rfl⟩)
    · exact Or.inr ⟨rfl, by omega, rfl⟩
    · exact Or.inl hS
    · exact Or.inr ⟨rfl, by omega, rfl⟩
  · rintro (hS | ⟨rfl, hl, rfl⟩)
    · exact Or.inl (Or.inr hS)
    · by_cases heq : l = a + 1
      · exact Or.inl (Or.inl ⟨rfl, heq, rfl⟩)
      · exact Or.inr ⟨rfl, by omega, rfl⟩

theorem way_zero (ino off : ℕ) : way ino off 0 = {⟨ino, 0, off⟩} := by
  ext ⟨ino', k, v⟩
  simp only [way, Set.mem_ofPred_eq, Set.mem_singleton_iff, Sigma.mk.injEq, heq_eq_eq,
    Nat.le_zero]
  refine and_congr_right fun _ => and_congr_right fun hk => ?_
  rw [hk, Nat.pow_zero, Nat.div_one]

/-- The first place of a way, and then the others. -/
theorem way_succ (ino off n : ℕ) :
    way ino off (n + 1) = insert ⟨ino, n + 1, off / 128 ^ (n + 1)⟩ (way ino off n) := by
  ext ⟨ino', k, v⟩
  simp only [way, Set.mem_insert_iff, Set.mem_ofPred_eq, Sigma.mk.injEq, heq_eq_eq]
  constructor
  · rintro ⟨rfl, hk, rfl⟩
    rcases Nat.le_succ_iff.1 hk with hk | rfl
    · exact Or.inr ⟨rfl, hk, rfl⟩
    · exact Or.inl ⟨rfl, rfl, rfl⟩
  · rintro (⟨rfl, rfl, rfl⟩ | ⟨rfl, hk, rfl⟩)
    · exact ⟨rfl, le_rfl, rfl⟩
    · exact ⟨rfl, by omega, rfl⟩

section Code

variable {σ : Type} {below : InodeStore σ} {belowIno N : ℕ}
  {A : ArrayStore below belowIno N fun _ => False} {h : ℕ → ℕ}

/-- The store has no room for the blocks at the places of `S`. -/
def NoRoom (N n : ℕ) (S : Set TreeNode) (e : String) (_ : σ) : Prop :=
  e = storeFull ∧ N - n - 1 < S.ncard

theorem NoRoom.mono {n : ℕ} {S S' : Set TreeNode} {e : String} {s : σ} (hfull : NoRoom N n S e s)
    (hS : S ⊆ S') (hfin : S'.Finite) : NoRoom N n S' e s :=
  ⟨hfull.1, lt_of_lt_of_le hfull.2 (Set.ncard_le_ncard hS hfin)⟩

/-- **`treedisk_alloc_block`** when one block of a tree is still to be written. -/
theorem treediskAllocBlock_off {D : Disk} {X C : Set ℕ} {c : ℕ} (hw : Wf N D h X) (hC : C ⊆ {c})
    (hc : 0 < c) (hfree : (D 0).freeList ≠ c) {snap : Snapshot} (hsnap : snap.superblock = D 0) :
    Triple (A.HoldsOff C D) (treediskAllocBlock ⟨below, belowIno⟩ snap)
      (fun r s => ((D 0).freeList ≠ 0 ∧
          r = (allocNo D, { snap with superblock := allocDisk D 0 })) ∧
        A.HoldsOff C (allocDisk D) s)
      (fun e _ => e = storeFull ∧ (D 0).freeList = 0) := by
  intro s hs
  have hroom := hw.room
  -- the disk that is there
  have hV : A.view s = update D c (A.view s c) := by
    funext x
    by_cases hx : x = c
    · rw [hx, update_self]
    · rw [update_of_ne hx]
      exact hs.2 x fun hxC => hx (hC hxC)
  have h0 : A.view s 0 = D 0 := by rw [hV, update_of_ne (by omega)]
  obtain ⟨hno, hdisk⟩ := alloc_update (d := D) (c := c) (by omega) hfree.symm (A.view s c)
  rw [← hV] at hno hdisk
  have halloc := treediskAllocBlock_spec (A := A) (V := A.view s) (by omega)
    (by rw [h0]; exact hw.freeList_lt) snap (hsnap.trans h0.symm) s (A.holdsOff_view hs.1)
  cases hrun : treediskAllocBlock ⟨below, belowIno⟩ snap s with
  | error e s' =>
      rw [hrun] at halloc
      rcases halloc.1 with ⟨he, hempty⟩ | hf
      · exact ⟨he, by rw [← h0]; exact hempty⟩
      · exact hf.elim
  | ok r s' =>
      rw [hrun] at halloc
      obtain ⟨⟨hne, hr⟩, hs'⟩ := halloc
      rw [h0] at hne
      have hsup : allocDisk (A.view s) 0 = allocDisk D 0 := by
        rw [hdisk, update_of_ne (by omega)]
      rw [hno, hsup] at hr
      refine ⟨⟨hne, hr⟩, hs'.1, fun x hx => ?_⟩
      rw [hs'.view_eq, hdisk]
      by_cases hxc : x = c
      · -- a block that is known is not one of the free list
        subst hxc
        rw [update_self, hs.2 x hx, allocDisk]
        split
        · exact (update_of_ne (by omega) _ _).symm
        · exact (update_of_ne hfree.symm _ _).symm
      · exact update_of_ne hxc _ _

/-- **The growth loop** takes a block for each level. -/
theorem growLoop_space (ino : ℕ) :
    ∀ k D h, Wf N D h ∅ → ino < 64 * inodeBlocks D →
      Triple (A.HoldsOff {1 + ino / 64} D) (growLoop ⟨below, belowIno⟩ k (snapshotOf D ino))
        (fun snap s => ∃ D', (snap = snapshotOf D' ino ∧ Wf N D' (growHeight h ino k) ∅ ∧
          inodeBlocks D' = inodeBlocks D ∧
          usedNodes D' (growHeight h ino k) = usedNodes D h ∪ spine ino (h ino) (h ino + k)) ∧
          A.HoldsOff {1 + ino / 64} D' s)
        (NoRoom N (inodeBlocks D) (usedNodes D h ∪ spine ino (h ino) (h ino + k))) := by
  intro k
  induction k with
  | zero =>
      intro D h hw _
      rw [growLoop, growHeight_zero, Nat.add_zero, spine_self, Set.union_empty]
      exact Triple.pure fun s hs => ⟨D, ⟨rfl, hw, rfl, rfl⟩, hs⟩
  | succ k ih =>
      intro D h hw hino
      have hv : Position (inodeBlocks D) h (.inode ino) [] := position_inode hino (Nat.zero_le _)
      have hfree := (slotAt_root D ino).ne_freeList hw hv
      have hfin := hw.usedNodes_finite.union (spine_finite ino (h ino) (h ino + (k + 1)))
      rw [growLoop]
      refine Triple.bind ((treediskAllocBlock_off hw (Set.Subset.refl {1 + ino / 64}) (by omega)
        hfree rfl).conseq (fun _ hs => hs) (fun _ _ hq => hq) ?_) fun r => Triple.of_pre ?_
      · rintro e s ⟨he, hempty⟩
        have hroot : (⟨ino, h ino + 1, 0⟩ : TreeNode) ∈ spine ino (h ino) (h ino + (k + 1)) :=
          ⟨rfl, ⟨Nat.lt_succ_self _, Nat.add_le_add_left (Nat.le_add_left 1 k) _⟩, rfl⟩
        refine ⟨he, hw.full hempty hfin Set.subset_union_left (Or.inr hroot) fun hu => ?_⟩
        exact absurd hu.1.2.1 (Nat.not_succ_le_self _)
      rintro ⟨hne, rfl⟩
      obtain ⟨hw₁, hn₁⟩ := hw.alloc hne
      have hkeep := (hw.alloc_keeps hne hv).1
      have hmem := hw.allocNo_mem hne
      have hino₁ : ino < 64 * inodeBlocks (allocDisk D) := by rw [hn₁]; exact hino
      have hsnap := snapshotOf_pushDisk (D := allocDisk D) ino (b := allocNo D) (by omega)
        (by omega)
      rw [hkeep] at hsnap
      change Triple _ (writeOrPanic below belowIno (allocNo D)
        (nullBlock.setWord 0 ((D (1 + ino / 64)).inodeRoot (Fin.ofNat 64 ino))) _ >>= fun _ =>
          growLoop _ k ⟨allocDisk D 0, (D (1 + ino / 64)).setWord (Block.rootIdx (Fin.ofNat 64 ino))
            (allocNo D), 1 + ino / 64, Fin.ofNat 64 ino⟩) _ _
      rw [← hsnap]
      refine Triple.bind ((writeOrPanic_spec (A := A) {1 + ino / 64} (update (allocDisk D)
        (1 + ino / 64) ((allocDisk D (1 + ino / 64)).setWord (Block.rootIdx (Fin.ofNat 64 ino))
          (allocNo D))) (allocNo D) _ _ hmem.2).conseq ?_ ?_ fun _ _ he => he.1.elim)
        (Q := fun _ s => A.HoldsOff {1 + ino / 64} (pushDisk (allocDisk D) ino (allocNo D)) s)
        fun _ => ?_
      · -- the inode block on the disk is not looked at
        intro s hs
        have hs' := hs.update (1 + ino / 64) ((allocDisk D (1 + ino / 64)).setWord
          (Block.rootIdx (Fin.ofNat 64 ino)) (allocNo D))
        rwa [Set.insert_eq_of_mem (Set.mem_singleton _)] at hs'
      · intro _ s hs
        rw [pushDisk, linkDisk, hkeep]
        rw [hkeep] at hs
        exact hs.mono Set.sdiff_subset
      have hused := hw₁.usedNodes_push hino₁
      rw [hw.usedNodes_alloc hne] at hused
      have hn₂ : inodeBlocks (pushDisk (allocDisk D) ino (allocNo D)) = inodeBlocks D :=
        (hw₁.push_sameData hino₁).blocks.trans hn₁
      have hheight : growHeight h ino 1 ino = h ino + 1 := update_self _ _ _
      have key := ih _ _ (hw₁.push hino₁) (by rw [hn₂]; exact hino)
      rw [hused, hheight, insert_union_spine, hn₂, growHeight_growHeight, Nat.add_comm 1 k] at key
      exact key

/-- The path to a place below, by one reference more. -/
theorem nodePath_succ {ino off n : ℕ} (hoff : off < 2 ^ 32) (hn : n + 1 ≤ h ino) :
    nodePath h ⟨ino, n, off / 128 ^ n⟩ =
      nodePath h ⟨ino, n + 1, off / 128 ^ (n + 1)⟩ ++ [refIndex off n] := by
  have hsub : h ino - n = h ino - (n + 1) + 1 := by omega
  rw [nodePath, nodePath]
  dsimp only
  rw [hsub, digits_add, Nat.pow_one, Nat.div_div_eq_div_mul, ← Nat.pow_succ, digits_succ,
    digits_zero, Nat.pow_zero, Nat.div_one, refIndex, logShiftR_eq hoff]

/-- The walk takes a block for a hole. -/
theorem allocHole_space {D : Disk} {C : Set ℕ} {c : ℕ} {i : Fin 128} {t : TreeNode}
    {snap : Snapshot} {S : Set TreeNode} (hw : Wf N D h ∅) (hino : t.1 < 64 * inodeBlocks D)
    (hs : SlotAt D t.1 (nodePath h t) c i) (h0 : (D c).word i = 0) (hsnap : snap.superblock = D 0)
    (hC : C ⊆ {c}) (hfin : S.Finite) (hsub : usedNodes D h ⊆ S) (ht : t ∈ S) :
    Triple (A.HoldsOff C D) (treediskAllocBlock ⟨below, belowIno⟩ snap)
      (fun r s => ((D 0).freeList ≠ 0 ∧
          r = (allocNo D, { snap with superblock := allocDisk D 0 })) ∧
        A.HoldsOff C (allocDisk D) s)
      (NoRoom N (inodeBlocks D) S) := by
  have hv := position_nodePath (h := h) hino
  refine (treediskAllocBlock_off hw hC (hs.lt hw hv).1 (hs.ne_freeList hw hv) hsnap).conseq
    (fun _ hs => hs) (fun _ _ hq => hq) ?_
  rintro e s ⟨he, hempty⟩
  refine ⟨he, hw.full hempty hfin hsub ht fun hu => hu.2 ?_⟩
  rw [← hs.word_eq]
  exact h0

/-- The walk writes the block that holds the reference. -/
theorem writeHole_space {D : Disk} {C : Set ℕ} {c n : ℕ} {S : Set TreeNode} (hC : C ⊆ {c})
    (hc : c < N) (blk : Block) (msg : String) :
    Triple (A.HoldsOff C D) (writeOrPanic below belowIno c blk msg)
      (fun _ s => A.HoldsOff ∅ (update D c blk) s) (NoRoom N n S) := by
  refine (writeOrPanic_spec C D c blk msg hc).conseq (fun _ hs => hs) ?_ fun _ _ he => he.1.elim
  intro _ s hs
  rwa [Set.sdiff_eq_empty.2 hC] at hs

/-- **The walk of `treedisk_write`** from the level `n` takes a block for each place on the way at
which there is none. -/
theorem writeWalk_space {ino off : ℕ} (hoff : off < 2 ^ 32) (hfits : off < 128 ^ h ino) :
    ∀ n D C c i snap, Wf N D h ∅ → ino < 64 * inodeBlocks D → n ≤ h ino →
      SlotAt D ino (nodePath h ⟨ino, n, off / 128 ^ n⟩) c i → snap.superblock = D 0 → C ⊆ {c} →
      (C = ∅ ∨ (D c).word i = 0) →
      Triple (A.HoldsOff C D) (writeWalk ⟨below, belowIno⟩ off n snap (D c) i c)
        (fun b s => ∃ D', (Wf N D' h ∅ ∧ inodeBlocks D' = inodeBlocks D ∧
          usedNodes D' h = usedNodes D h ∪ way ino off n ∧
          node (slots D') (.inode ino) (nodePath h ⟨ino, 0, off⟩) = b ∧ b ≠ 0) ∧ A.HoldsOff ∅ D' s)
        (NoRoom N (inodeBlocks D) (usedNodes D h ∪ way ino off n)) := by
  have hplace : ∀ n D, ino < 64 * inodeBlocks D → n ≤ h ino →
      ino < 64 * inodeBlocks D ∧ n ≤ h ino ∧ off / 128 ^ n < 128 ^ (h ino - n) := by
    intro n D hino hn
    refine ⟨hino, hn, Nat.div_lt_of_lt_mul ?_⟩
    rwa [← Nat.pow_add, show n + (h ino - n) = h ino by omega]
  intro n
  induction n with
  | zero =>
      intro D C c i snap hw hino hn hs hsnap hC hknown
      have ht := hplace 0 D hino hn
      have hfin := hw.usedNodes_finite.union (way_finite ino off 0)
      rw [Nat.pow_zero, Nat.div_one] at hs ht
      have hv := position_nodePath (h := h) (t := ⟨ino, 0, off⟩) hino
      have hlen : (nodePath h ⟨ino, 0, off⟩).length = h ino := length_digits _ _
      rw [way_zero, Set.union_singleton] at hfin ⊢
      rw [writeWalk]
      by_cases h0 : (D c).word i = 0
      · -- a hole: the block is allocated and linked
        rw [if_pos h0]
        refine Triple.bind (allocHole_space hw hino hs h0 hsnap hC hfin (Set.subset_insert _ _)
          (Set.mem_insert _ _)) fun r => Triple.of_pre ?_
        rintro ⟨hne, rfl⟩
        obtain ⟨hw₁, hsl, hDc, hv₁⟩ := hw.alloc_slotAt hne hs hv
        have hnew : (nodePath h ⟨ino, 0, off⟩).length < h ino →
            ∀ j, (allocDisk D (allocNo D)).word j = 0 := fun hlt => absurd hlt (by omega)
        have h0' : (allocDisk D c).word i = 0 := by rw [hDc]; exact h0
        have hused := hw₁.usedNodes_link (t := ⟨ino, 0, off⟩)
          (by rw [(hw.alloc hne).2]; exact ht) hsl h0' hnew
        rw [hw.usedNodes_alloc hne] at hused
        refine Triple.bind (writeHole_space hC (hs.lt hw hv).2 _ _) fun _ => ?_
        refine Triple.pure fun s hsd => ⟨linkDisk (allocDisk D) c i (allocNo D)
          (allocDisk D (allocNo D)), ⟨hw₁.link hsl hv₁ h0' hnew, ?_, hused,
            (hw₁.link_node hsl hv₁ h0' hnew).1, hw₁.part.ne_zero (Set.mem_singleton _)⟩, ?_⟩
        · have hb := hw₁.part.sub (Set.mem_singleton (allocNo D))
          rw [(hsl.linkDisk_sizes hw₁ hv₁ hb.1 _).1, (hw.alloc hne).2]
        · have hself : update (update (allocDisk D) c
              ((allocDisk D c).setWord i (allocNo D))) (allocNo D) (allocDisk D (allocNo D)) =
              update (allocDisk D) c ((allocDisk D c).setWord i (allocNo D)) := by
            refine update_eq_self_iff.2 ?_
            rw [update_of_ne (hsl.ne_detached hw₁ hv₁).symm]
          rw [linkDisk, hself, hDc]
          exact hsd
      · rw [if_neg h0]
        obtain rfl := hknown.resolve_right h0
        have hused : (⟨ino, 0, off⟩ : TreeNode) ∈ usedNodes D h :=
          ⟨ht, by rw [← hs.word_eq]; exact h0⟩
        rw [Set.insert_eq_of_mem hused]
        exact Triple.pure fun s hsd => ⟨D, ⟨hw, rfl, rfl, hs.word_eq.symm, h0⟩, hsd⟩
  | succ n ih =>
      intro D C c i snap hw hino hn hs hsnap hC hknown
      have ht := hplace (n + 1) D hino hn
      have hfin := hw.usedNodes_finite.union (way_finite ino off (n + 1))
      have hv := position_nodePath (h := h) (t := ⟨ino, n + 1, off / 128 ^ (n + 1)⟩) hino
      have hpath := nodePath_succ (h := h) hoff hn
      have hway : ∀ S : Set TreeNode, insert ⟨ino, n + 1, off / 128 ^ (n + 1)⟩ S ∪ way ino off n =
          S ∪ way ino off (n + 1) := by
        intro S
        rw [way_succ, Set.union_insert, Set.insert_union]
      rw [writeWalk]
      by_cases h0 : (D c).word i = 0
      · -- a hole: an indirect block is linked, whose contents are still to be written
        rw [if_pos h0]
        refine Triple.bind (allocHole_space hw hino hs h0 hsnap hC hfin Set.subset_union_left
          (Or.inr ⟨rfl, le_rfl, rfl⟩)) fun r => Triple.of_pre ?_
        rintro ⟨hne, rfl⟩
        obtain ⟨hw₁, hsl, hDc, hv₁⟩ := hw.alloc_slotAt hne hs hv
        have hb := hw₁.part.sub (Set.mem_singleton (allocNo D))
        have hb0 := hw₁.part.ne_zero (Set.mem_singleton (allocNo D))
        have hnull : (nodePath h ⟨ino, n + 1, off / 128 ^ (n + 1)⟩).length < h ino →
            ∀ j, nullBlock.word j = 0 := fun _ _ => rfl
        have h0' : (allocDisk D c).word i = 0 := by rw [hDc]; exact h0
        have hused := hw₁.usedNodes_link (t := ⟨ino, n + 1, off / 128 ^ (n + 1)⟩)
          (by rw [(hw.alloc hne).2]; exact ht) hsl h0' hnull
        rw [hw.usedNodes_alloc hne] at hused
        have hn₂ : inodeBlocks (linkDisk (allocDisk D) c i (allocNo D) nullBlock) =
            inodeBlocks D := by
          rw [(hsl.linkDisk_sizes hw₁ hv₁ hb.1 _).1, (hw.alloc hne).2]
        have hself : linkDisk (allocDisk D) c i (allocNo D) nullBlock (allocNo D) = nullBlock :=
          update_self _ _ _
        have hc := hs.lt hw hv
        have hsup : linkDisk (allocDisk D) c i (allocNo D) nullBlock 0 = allocDisk D 0 := by
          rw [linkDisk, update_of_ne (Ne.symm hb0), update_of_ne (by omega)]
        have key := ih (linkDisk (allocDisk D) c i (allocNo D) nullBlock) {allocNo D} (allocNo D)
          (refIndex off n) { snap with superblock := allocDisk D 0 } (hw₁.link hsl hv₁ h0' hnull)
          (by rw [hn₂]; exact hino) (by omega)
          (Or.inr ⟨_, hpath, (hw₁.link_node hsl hv₁ h0' hnull).1, hb0⟩) hsup.symm
          (Set.Subset.refl _) (Or.inr (by rw [hself]; rfl))
        rw [hself, hused, hway, hn₂] at key
        refine Triple.bind (writeHole_space hC hc.2 _ _) fun _ => ?_
        refine key.conseq (fun s hsd => ?_) (fun _ _ hq => hq) fun _ _ he => he
        rw [← insert_empty_eq, linkDisk, hDc]
        exact hsd.update _ _
      · -- the indirect block exists: it is read
        rw [if_neg h0]
        obtain rfl := hknown.resolve_right h0
        have hnode := hs.word_eq
        have hblt := hw.node_lt hv (hnode ▸ h0)
        rw [← hnode] at hblt
        have hused : (⟨ino, n + 1, off / 128 ^ (n + 1)⟩ : TreeNode) ∈ usedNodes D h :=
          ⟨ht, by rw [← hnode]; exact h0⟩
        rw [← hway, Set.insert_eq_of_mem hused]
        refine Triple.get_bind fun s₀ hs₀ => ?_
        rw [A.read_holdsOff hs₀ hblt.2 (Set.notMem_empty _)]
        exact (ih D ∅ ((D c).word i) (refIndex off n) snap hw hino (by omega)
          (Or.inr ⟨_, hpath, hnode.symm, h0⟩) hsnap (Set.empty_subset _) (Or.inl rfl)).conseq
          (fun s hs => hs ▸ hs₀) (fun _ _ hq => hq) fun _ _ he => he

/-- The last part of a write: the walk from the root, and the data. -/
theorem writeData_space {D : Disk} {ino off : ℕ} (hw : Wf N D h ∅)
    (hino : ino < 64 * inodeBlocks D) (hoff : off < 2 ^ 32) (hfits : off < 128 ^ h ino)
    (blk : Block) :
    Triple (A.HoldsOff ∅ D) (writeData ⟨below, belowIno⟩ off blk (h ino) (snapshotOf D ino))
      (fun _ s => ∃ D', (inodeBlocks D' = inodeBlocks D ∧
        usedNodes D' h = usedNodes D h ∪ way ino off (h ino)) ∧ A.HoldsOff ∅ D' s)
      (NoRoom N (inodeBlocks D) (usedNodes D h ∪ way ino off (h ino))) := by
  have hroot : nodePath h ⟨ino, h ino, off / 128 ^ h ino⟩ = [] := by
    rw [nodePath, Nat.sub_self, digits_zero]
  refine Triple.bind (writeWalk_space hoff hfits (h ino) D ∅ (1 + ino / 64) (Block.rootIdx
    (Fin.ofNat 64 ino)) (snapshotOf D ino) hw hino le_rfl (by rw [hroot]; exact slotAt_root D ino)
    rfl (Set.empty_subset _) (Or.inl rfl)) fun b => Triple.of_exists fun D' => Triple.of_pre ?_
  rintro ⟨hw', hn, hused, rfl, hb0⟩
  have hv : Position (inodeBlocks D') h (.inode ino) (nodePath h ⟨ino, 0, off⟩) :=
    position_nodePath (t := ⟨ino, 0, off⟩) (by rw [hn]; exact hino)
  refine Triple.bind (writeHole_space (Set.empty_subset _) (hw'.node_lt hv hb0).2 blk _)
    fun _ => ?_
  refine Triple.pure fun s hs => ⟨_, ⟨(inodeBlocks_update hb0 blk).trans hn, ?_⟩, hs⟩
  rw [hw'.usedNodes_store hv (length_digits _ _) hb0, hused]

/-- The places that have a block after a write. -/
def placesAfter (d : Disk) (ino off : ℕ) : Set TreeNode :=
  usedNodes d (heights d) ∪ spine ino (heights d ino) (max (heights d ino) (levels off)) ∪
    way ino off (max (heights d ino) (levels off))

/-- The heights after a write. -/
def heightsAfter (d : Disk) (ino off : ℕ) : ℕ → ℕ :=
  update (heights d) ino (max (heights d ino) (levels off))

/-- **`treedisk_write`** takes a block for each place that it needs and that has none, and panics if
there are not enough. -/
theorem treediskWrite_space {d : Disk} {n : ℕ} {F : ℕ → SparseArray Block nullBlock}
    (hr : Represents N n d F) {ino off : ℕ} (hino : ino < 64 * n) (hoff : off < 2 ^ 32 - 1)
    (blk : Block) :
    Triple (A.HoldsOff ∅ d) (treediskWrite ⟨below, belowIno⟩ ino off blk)
      (fun _ s => ∃ d', (inodeBlocks d' = n ∧
        usedNodes d' (heightsAfter d ino off) = placesAfter d ino off) ∧ A.HoldsOff ∅ d' s)
      (NoRoom N n (placesAfter d ino off)) := by
  have hino' : ino < 64 * inodeBlocks d := by rw [hr.blocks]; exact hino
  have hoff' : off < 2 ^ 32 := by omega
  have hfin : (placesAfter d ino off).Finite :=
    (hr.wf.usedNodes_finite.union (spine_finite _ _ _)).union (way_finite _ _ _)
  refine treediskWrite_cases hr.wf hino' hoff blk (fun hg => ?_) fun hlt => ?_
  · unfold writeGrow
    have hle := heights_le_levels hoff' hg
    have hmax : max (heights d ino) (levels off) = levels off := Nat.max_eq_right hle
    have hsum : heights d ino + (levels off - heights d ino) = levels off := by omega
    have hheights : growHeight (heights d) ino (levels off - heights d ino) =
        heightsAfter d ino off := by
      rw [growHeight, heightsAfter, hsum, hmax]
    have hheight : heightsAfter d ino off ino = levels off := by
      rw [heightsAfter, update_self, hmax]
    have hplaces : placesAfter d ino off = usedNodes (sizeDisk d ino (off + 1)) (heights d) ∪
        spine ino (heights d ino) (levels off) ∪ way ino off (levels off) := by
      rw [placesAfter, hmax, hr.wf.usedNodes_size hino']
    have hn₀ := inodeBlocks_sizeDisk d ino (off + 1)
    have hgrow := growLoop_space (A := A) ino (levels off - heights d ino) _ _
      (hr.wf.size hino' (off + 1)) (by rw [hn₀]; exact hino')
    rw [hheights, hsum, hn₀, hr.blocks] at hgrow
    refine Triple.bind (hgrow.conseq ?_ (fun _ _ hq => hq) ?_) fun snap =>
      Triple.of_exists fun D => Triple.of_pre ?_
    · intro s hs
      rw [← insert_empty_eq]
      exact hs.update _ _
    · intro e s hfull
      refine hfull.mono ?_ hfin
      rw [hplaces]
      exact Set.subset_union_left
    rintro ⟨rfl, hw, hn, hused⟩
    have hinoD : ino < 64 * inodeBlocks D := by rw [hn]; exact hino
    refine Triple.bind ((writeHole_space (Set.Subset.refl _) (hw.inode_lt hinoD)
      (D (1 + ino / 64)) _).conseq (fun _ hs => hs) ?_ fun _ _ he => he)
      (Q := fun _ s => A.HoldsOff ∅ D s) fun _ => ?_
    · intro _ s hs
      rwa [update_eq_self] at hs
    have hdata := writeData_space (A := A) hw hinoD hoff'
      (by rw [hheight]; exact lt_pow_levels hoff') blk
    rw [hheight, hused, ← hplaces, hn] at hdata
    rw [hsum]
    exact hdata
  · have hsize := fileSize_lt d ino
    have hle : levels off ≤ heights d ino := by
      rw [heights, nlevels, if_pos (by omega)]
      exact levels_mono (by omega) (by omega)
    have hmax : max (heights d ino) (levels off) = heights d ino := Nat.max_eq_left hle
    have hheights : heightsAfter d ino off = heights d := by
      rw [heightsAfter, hmax, update_eq_self]
    have hplaces : placesAfter d ino off =
        usedNodes d (heights d) ∪ way ino off (heights d ino) := by
      rw [placesAfter, hmax, spine_self, Set.union_empty]
    have hdata := writeData_space (A := A) hr.wf hino' hoff' (lt_pow_nlevels hsize hlt) blk
    rw [← hplaces, hr.blocks] at hdata
    rw [hheights]
    exact hdata

end Code

/-! ### The blocks of a file -/

/-- The places of a level that have a block, when the offsets of `W` have been written: those above
an offset, and the first one. -/
def levelNodes (W : Finset ℕ) : ℕ → Finset ℕ
  | 0 => W
  | k + 1 => insert 0 (W.image fun off => off / 128 ^ (k + 1))

/-- The height of the tree, when the offsets of `W` have been written. -/
def heightNeeded (W : Finset ℕ) : ℕ := nlevels (W.sup (· + 1))

/-- The number of blocks of a file, when the offsets of `W` have been written. -/
def blocksNeeded (W : Finset ℕ) : ℕ :=
  ∑ k ∈ Finset.range (heightNeeded W + 1), (levelNodes W k).card

/-- The places of `n` inode blocks that have a block, when the offsets of `W ino` have been
written to the inode `ino`. -/
def neededNodes (n : ℕ) (W : ℕ → Finset ℕ) : Finset TreeNode :=
  (Finset.range (64 * n)).sigma fun ino =>
    (Finset.range (heightNeeded (W ino) + 1)).sigma (levelNodes (W ino))

theorem card_neededNodes (n : ℕ) (W : ℕ → Finset ℕ) :
    (neededNodes n W).card = ∑ ino ∈ Finset.range (64 * n), blocksNeeded (W ino) := by
  rw [neededNodes, Finset.card_sigma]
  exact Finset.sum_congr rfl fun ino _ => Finset.card_sigma _ _

theorem mem_neededNodes {n : ℕ} {W : ℕ → Finset ℕ} {ino k v : ℕ} :
    (⟨ino, k, v⟩ : TreeNode) ∈ neededNodes n W ↔
      ino < 64 * n ∧ k ≤ heightNeeded (W ino) ∧ v ∈ levelNodes (W ino) k := by
  rw [neededNodes, Finset.mem_sigma, Finset.mem_sigma, Finset.mem_range, Finset.mem_range,
    Nat.lt_succ_iff]

theorem mem_levelNodes {W : Finset ℕ} {k v : ℕ} :
    v ∈ levelNodes W k ↔ (0 < k ∧ v = 0) ∨ ∃ off ∈ W, off / 128 ^ k = v := by
  cases k with
  | zero => simp [levelNodes]
  | succ k => simp [levelNodes]

/-- The height of a tree, when a write may make it grow. -/
theorem nlevels_max {size off : ℕ} (hsize : size < 2 ^ 32) (hoff : off < 2 ^ 32 - 1) :
    nlevels (max size (off + 1)) = max (nlevels size) (levels off) := by
  rcases Nat.lt_or_ge off size with hlt | hge
  · have hpos : size > 0 := by omega
    rw [Nat.max_eq_left hlt, nlevels, if_pos hpos]
    exact (Nat.max_eq_left (levels_mono (by omega) (by omega))).symm
  · rw [Nat.max_eq_right (by omega), nlevels, if_pos (by omega), Nat.add_sub_cancel, nlevels]
    refine (Nat.max_eq_right ?_).symm
    split
    · exact levels_mono (by omega) (by omega)
    · exact Nat.zero_le _

theorem sup_offsets_lt {W : Finset ℕ} (hW : ∀ off ∈ W, off < 2 ^ 32 - 1) :
    W.sup (· + 1) < 2 ^ 32 := by
  refine (Finset.sup_lt_iff (by decide)).2 fun off hoff => ?_
  have := hW off hoff
  omega

theorem heightNeeded_insert {W : Finset ℕ} (hW : ∀ off ∈ W, off < 2 ^ 32 - 1) {off : ℕ}
    (hoff : off < 2 ^ 32 - 1) :
    heightNeeded (insert off W) = max (heightNeeded W) (levels off) := by
  rw [heightNeeded, heightNeeded, Finset.sup_insert, sup_comm]
  exact nlevels_max (sup_offsets_lt hW) hoff

/-- The offsets written are below the size of the file, and the tree has room for them. -/
theorem lt_pow_heightNeeded {W : Finset ℕ} (hW : ∀ off ∈ W, off < 2 ^ 32 - 1) {off : ℕ}
    (hoff : off ∈ W) : off < 128 ^ heightNeeded W :=
  lt_pow_nlevels (sup_offsets_lt hW) (Finset.le_sup (f := (· + 1)) hoff)

/-- **The places after a write**, from the offsets written. -/
theorem neededNodes_insert {n ino off : ℕ} {W : ℕ → Finset ℕ} (hino : ino < 64 * n)
    (hW : ∀ off ∈ W ino, off < 2 ^ 32 - 1) (hoff : off < 2 ^ 32 - 1) :
    (neededNodes n (update W ino (insert off (W ino))) : Set TreeNode) =
      ↑(neededNodes n W) ∪
        spine ino (heightNeeded (W ino)) (max (heightNeeded (W ino)) (levels off)) ∪
        way ino off (max (heightNeeded (W ino)) (levels off)) := by
  ext ⟨ino', k, v⟩
  simp only [Set.mem_union, Finset.mem_coe, mem_neededNodes, spine, way, Set.mem_ofPred_eq]
  by_cases he : ino' = ino
  · subst he
    rw [update_self, heightNeeded_insert hW hoff]
    generalize hL : max (heightNeeded (W ino')) (levels off) = L
    have hle : heightNeeded (W ino') ≤ L := hL ▸ Nat.le_max_left _ _
    simp only [hino, true_and, mem_levelNodes, Finset.mem_insert]
    constructor
    · rintro ⟨hk, ⟨hpos, rfl⟩ | ⟨w, rfl | hw, rfl⟩⟩
      · by_cases hkH : k ≤ heightNeeded (W ino')
        · exact Or.inl (Or.inl ⟨hkH, Or.inl ⟨hpos, rfl⟩⟩)
        · exact Or.inl (Or.inr ⟨⟨by omega, hk⟩, rfl⟩)
      · exact Or.inr ⟨hk, rfl⟩
      · by_cases hkH : k ≤ heightNeeded (W ino')
        · exact Or.inl (Or.inl ⟨hkH, Or.inr ⟨w, hw, rfl⟩⟩)
        · -- above the old tree, the old offsets are below the first place
          have hlt := lt_of_lt_of_le (lt_pow_heightNeeded hW hw)
            (Nat.pow_le_pow_right (by decide : 128 > 0) (show heightNeeded (W ino') ≤ k by omega))
          exact Or.inl (Or.inr ⟨⟨by omega, hk⟩, Nat.div_eq_of_lt hlt⟩)
    · rintro ((⟨hk, ⟨hpos, rfl⟩ | ⟨w, hw, rfl⟩⟩ | ⟨⟨hlt, hk⟩, rfl⟩) | ⟨hk, rfl⟩)
      · exact ⟨by omega, Or.inl ⟨hpos, rfl⟩⟩
      · exact ⟨by omega, Or.inr ⟨w, Or.inr hw, rfl⟩⟩
      · exact ⟨hk, Or.inl ⟨by omega, rfl⟩⟩
      · exact ⟨hk, Or.inr ⟨off, Or.inl rfl, rfl⟩⟩
  · rw [update_of_ne he]
    simp only [he, false_and, or_false]

theorem nlevels_mono {a b : ℕ} (hab : a ≤ b) (hb : b < 2 ^ 32) : nlevels a ≤ nlevels b := by
  rw [nlevels, nlevels]
  by_cases h0 : a > 0
  · rw [if_pos h0, if_pos (by omega)]
    exact levels_mono (by omega) (by omega)
  · rw [if_neg h0]
    exact Nat.zero_le _

/-- More offsets take more places. -/
theorem neededNodes_mono {n : ℕ} {W W' : ℕ → Finset ℕ} (hW : ∀ ino < 64 * n, W ino ⊆ W' ino)
    (hW' : ∀ ino < 64 * n, ∀ off ∈ W' ino, off < 2 ^ 32 - 1) :
    neededNodes n W ⊆ neededNodes n W' := by
  rintro ⟨ino, k, v⟩ ht
  rw [mem_neededNodes] at ht ⊢
  obtain ⟨hino, hk, hv⟩ := ht
  have hmono : heightNeeded (W ino) ≤ heightNeeded (W' ino) :=
    nlevels_mono (Finset.sup_mono (hW ino hino)) (sup_offsets_lt (hW' ino hino))
  refine ⟨hino, hk.trans hmono, ?_⟩
  rw [mem_levelNodes] at hv ⊢
  rcases hv with hv | ⟨off, hoff, hv⟩
  · exact Or.inl hv
  · exact Or.inr ⟨off, hW ino hino hoff, hv⟩

theorem neededNodes_congr {n : ℕ} {W W' : ℕ → Finset ℕ} (hW : ∀ ino < 64 * n, W' ino = W ino) :
    neededNodes n W' = neededNodes n W := by
  ext ⟨ino, k, v⟩
  rw [mem_neededNodes, mem_neededNodes]
  refine and_congr_right fun hino => ?_
  rw [hW ino hino]

/-! ### Runs of writes -/

/-- The offsets that are written to an inode. -/
def offsetsOf (ino : ℕ) (ops : List WriteOp) : Finset ℕ :=
  ((ops.filter fun op => op.ino == ino).map WriteOp.offset).toFinset

theorem mem_offsetsOf {ino off : ℕ} {ops : List WriteOp} :
    off ∈ offsetsOf ino ops ↔ ∃ op ∈ ops, op.ino = ino ∧ op.offset = off := by
  simp only [offsetsOf, List.mem_toFinset, List.mem_map, List.mem_filter, beq_iff_eq, and_assoc]

theorem offsetsOf_cons (ino : ℕ) (op : WriteOp) (ops : List WriteOp) :
    offsetsOf ino (op :: ops) =
      if ino = op.ino then insert op.offset (offsetsOf ino ops) else offsetsOf ino ops := by
  ext off
  by_cases he : ino = op.ino
  · rw [if_pos he, Finset.mem_insert, mem_offsetsOf, mem_offsetsOf, List.exists_mem_cons_iff]
    simp only [← he, true_and, eq_comm]
  · rw [if_neg he, mem_offsetsOf, mem_offsetsOf, List.exists_mem_cons_iff]
    simp only [Ne.symm he, false_and, false_or]

/-- **The blocks of the files** are those of the offsets that have been written. -/
structure Occupies (n : ℕ) (d : Disk) (W : ℕ → Finset ℕ) : Prop where
  offsets : ∀ ino < 64 * n, ∀ off ∈ W ino, off < 2 ^ 32 - 1
  size : ∀ ino < 64 * n, fileSize d ino = (W ino).sup (· + 1)
  used : usedNodes d (heights d) = neededNodes n W

theorem Occupies.congr {n : ℕ} {d : Disk} {W W' : ℕ → Finset ℕ} (ho : Occupies n d W)
    (hW : ∀ ino < 64 * n, W' ino = W ino) : Occupies n d W' := by
  refine ⟨fun ino hino => ?_, fun ino hino => ?_, ?_⟩
  · rw [hW ino hino]
    exact ho.offsets ino hino
  · rw [hW ino hino]
    exact ho.size ino hino
  · rw [neededNodes_congr hW]
    exact ho.used

theorem Occupies.height_eq {n : ℕ} {d : Disk} {W : ℕ → Finset ℕ} (ho : Occupies n d W) {ino : ℕ}
    (hino : ino < 64 * n) : heights d ino = heightNeeded (W ino) := by
  rw [heights, ho.size ino hino, heightNeeded]

/-- Only the heights of the inodes in range matter. -/
theorem usedNodes_congr_heights {d : Disk} {h h' : ℕ → ℕ}
    (hh : ∀ ino < 64 * inodeBlocks d, h' ino = h ino) : usedNodes d h' = usedNodes d h := by
  ext t
  rw [usedNodes, usedNodes, Set.mem_ofPred_eq, Set.mem_ofPred_eq]
  by_cases ht : t.1 < 64 * inodeBlocks d
  · rw [nodePath, nodePath, hh t.1 ht]
  · exact iff_of_false (fun hu => ht hu.1.1) fun hu => ht hu.1.1

section Runs

variable {σ : Type} {below : InodeStore σ} {belowIno N n : ℕ}
  {A : ArrayStore below belowIno N fun _ => False}

/-- **A write** adds its offset, or there is no room for the blocks. -/
theorem Occupies.write {d : Disk} {F : ℕ → SparseArray Block nullBlock} {W : ℕ → Finset ℕ}
    (hr : Represents N n d F) (ho : Occupies n d W) {ino off : ℕ} (hino : ino < 64 * n)
    (hoff : off < 2 ^ 32 - 1) (blk : Block) :
    Triple (A.HoldsOff ∅ d) (treediskWrite ⟨below, belowIno⟩ ino off blk)
      (fun r s => ∃ d', (r = 0 ∧
        Represents N n d' (update F ino ((F ino).write off blk)) ∧
        Occupies n d' (update W ino (insert off (W ino)))) ∧ A.HoldsOff ∅ d' s)
      (NoRoom N n (neededNodes n (update W ino (insert off (W ino))))) := by
  have hW := ho.offsets ino hino
  have hplaces : placesAfter d ino off =
      neededNodes n (update W ino (insert off (W ino))) := by
    rw [neededNodes_insert hino hW hoff, placesAfter, ho.used, ho.height_eq hino]
  refine ((treediskWrite_spec hr hino hoff blk).and (treediskWrite_space hr hino hoff blk)).conseq
    (fun _ hs => hs) ?_ ?_
  · rintro r s ⟨⟨d', ⟨hr0, hr'⟩, hs⟩, d'', ⟨hn, hused⟩, hs''⟩
    obtain rfl : d' = d'' := by rw [← hs.view_eq, hs''.view_eq]
    have hsize : ∀ ino' < 64 * n, fileSize d' ino' =
        (update W ino (insert off (W ino)) ino').sup (· + 1) := by
      intro ino' hino'
      rw [← hr'.size ino' hino']
      by_cases he : ino' = ino
      · subst he
        rw [update_self, update_self, SparseArray.size_write,
          hr.size ino' hino', ho.size ino' hino', Finset.sup_insert, sup_comm]
      · rw [update_of_ne he, update_of_ne he, hr.size ino' hino',
          ho.size ino' hino']
    have hheights : ∀ ino' < 64 * inodeBlocks d',
        heights d' ino' = heightsAfter d ino off ino' := by
      intro ino' hino'
      rw [hn] at hino'
      rw [heights, hsize ino' hino', heightsAfter]
      by_cases he : ino' = ino
      · subst he
        rw [update_self, update_self, ho.height_eq hino']
        exact heightNeeded_insert hW hoff
      · rw [update_of_ne he, update_of_ne he, ho.height_eq hino']
        rfl
    refine ⟨d', ⟨hr0, hr', ⟨?_, hsize, ?_⟩⟩, hs⟩
    · intro ino' hino' off' hoff'
      by_cases he : ino' = ino
      · subst he
        rw [update_self, Finset.mem_insert] at hoff'
        rcases hoff' with rfl | hoff'
        · exact hoff
        · exact hW off' hoff'
      · rw [update_of_ne he] at hoff'
        exact ho.offsets ino' hino' off' hoff'
    · rw [usedNodes_congr_heights hheights, hused, hplaces]
  · rintro e s ⟨-, hfull⟩
    rwa [hplaces] at hfull

/-- A write, in range or not. -/
theorem Occupies.writeOp {d : Disk} {F : ℕ → SparseArray Block nullBlock} {W : ℕ → Finset ℕ}
    (hr : Represents N n d F) (ho : Occupies n d W) (op : WriteOp)
    (hoff : op.offset < 2 ^ 32 - 1) :
    Triple (A.HoldsOff ∅ d) (treediskWrite ⟨below, belowIno⟩ op.ino op.offset op.block)
      (fun r s => ∃ d', (r = (if op.ino < 64 * n then 0 else -1) ∧ (∃ F', Represents N n d' F') ∧
        Occupies n d' fun ino => W ino ∪ offsetsOf ino [op]) ∧ A.HoldsOff ∅ d' s)
      (NoRoom N n (neededNodes n fun ino => W ino ∪ offsetsOf ino [op])) := by
  have hself : offsetsOf op.ino [op] = {op.offset} := by
    rw [offsetsOf_cons, if_pos rfl]
    rfl
  have hother : ∀ ino, ino ≠ op.ino → offsetsOf ino [op] = ∅ := by
    intro ino he
    rw [offsetsOf_cons, if_neg he]
    rfl
  by_cases hino : op.ino < 64 * n
  · have hW : (fun ino => W ino ∪ offsetsOf ino [op]) =
        update W op.ino (insert op.offset (W op.ino)) := by
      funext ino
      by_cases he : ino = op.ino
      · rw [he, update_self, hself, Finset.union_singleton]
      · rw [update_of_ne he, hother ino he, Finset.union_empty]
    rw [hW]
    refine (ho.write hr hino hoff op.block).conseq (fun _ hs => hs) ?_ fun _ _ he => he
    rintro r s ⟨d', ⟨rfl, hr', ho'⟩, hs⟩
    exact ⟨d', ⟨(if_pos hino).symm, ⟨_, hr'⟩, ho'⟩, hs⟩
  · intro s hs
    rw [treediskWrite_out hr hs (by omega)]
    refine ⟨d, ⟨(if_neg hino).symm, ⟨F, hr⟩, ho.congr fun ino hlt => ?_⟩, hs⟩
    rw [hother ino (by omega), Finset.union_empty]

/-- **A run of writes** adds its offsets, or there is no room for the blocks. -/
theorem treediskWrites_space :
    ∀ ops d F W, Represents N n d F → Occupies n d W → (∀ op ∈ ops, op.offset < 2 ^ 32 - 1) →
      Triple (A.HoldsOff ∅ d) (treediskWrites ⟨below, belowIno⟩ ops)
        (fun rs s => ∃ d', (rs = (ops.map fun op => if op.ino < 64 * n then 0 else -1) ∧
          (∃ F', Represents N n d' F') ∧
          Occupies n d' fun ino => W ino ∪ offsetsOf ino ops) ∧ A.HoldsOff ∅ d' s)
        (NoRoom N n (neededNodes n fun ino => W ino ∪ offsetsOf ino ops)) := by
  intro ops
  induction ops with
  | nil =>
      intro d F W hr ho _
      rw [treediskWrites]
      refine Triple.pure fun s hs => ⟨d, ⟨rfl, ⟨F, hr⟩, ho.congr fun ino _ => ?_⟩, hs⟩
      exact Finset.union_empty _
  | cons op ops ih =>
      intro d F W hr ho hops
      have hoff := hops op List.mem_cons_self
      have hops' : ∀ op' ∈ ops, op'.offset < 2 ^ 32 - 1 := fun op' h =>
        hops op' (List.mem_cons_of_mem _ h)
      -- the offsets of the first write, and those of the others
      have hunion : ∀ ino, W ino ∪ offsetsOf ino (op :: ops) =
          W ino ∪ offsetsOf ino [op] ∪ offsetsOf ino ops := by
        intro ino
        rw [Finset.union_assoc, offsetsOf_cons, offsetsOf_cons]
        by_cases he : ino = op.ino
        · rw [if_pos he, if_pos he, Finset.insert_union]
          exact congrArg (fun S => W ino ∪ insert op.offset S) (Finset.empty_union _).symm
        · rw [if_neg he, if_neg he]
          exact congrArg (fun S => W ino ∪ S) (Finset.empty_union _).symm
      have hW : ∀ ino < 64 * n, ∀ off ∈ W ino ∪ offsetsOf ino (op :: ops), off < 2 ^ 32 - 1 := by
        intro ino hino off hmem
        rcases Finset.mem_union.1 hmem with hmem | hmem
        · exact ho.offsets ino hino off hmem
        · obtain ⟨op', hop', -, rfl⟩ := mem_offsetsOf.1 hmem
          exact hops op' hop'
      rw [treediskWrites]
      refine Triple.bind ((ho.writeOp hr op hoff).conseq (fun _ hs => hs) (fun _ _ hq => hq) ?_)
        fun r => Triple.of_exists fun d₁ => Triple.of_pre ?_
      · intro e s hfull
        refine hfull.mono (Finset.coe_subset.2 (neededNodes_mono ?_ hW)) (Finset.finite_toSet _)
        intro ino _
        rw [hunion]
        exact Finset.subset_union_left
      rintro ⟨rfl, ⟨F₁, hr₁⟩, ho₁⟩
      have key := ih d₁ F₁ _ hr₁ ho₁ hops'
      simp only [← hunion] at key
      refine Triple.bind key fun rs => Triple.of_exists fun d₂ => Triple.of_pre ?_
      rintro ⟨rfl, hr₂, ho₂⟩
      exact Triple.pure fun s hs => ⟨d₂, ⟨rfl, hr₂, ho₂⟩, hs⟩

/-- **A new file system** has no blocks in its trees. -/
theorem FreeUpTo.occupies {D : Disk} {fl : ℕ} (hf : FreeUpTo N n D fl N) (hfl : fl < N)
    (hn : n < N) : Occupies n D fun _ => ∅ := by
  obtain ⟨hblocks, -⟩ := hf.bounds hfl hn
  have hinode : ∀ ino, ino < 64 * n → D (1 + ino / 64) = nullBlock := fun ino hino =>
    hf.inodes _ (by omega) (by omega)
  refine ⟨fun _ _ _ hoff => absurd hoff (Finset.notMem_empty _), fun ino hino => ?_, ?_⟩
  · rw [fileSize, hinode ino hino]
    rfl
  · have hneeded : neededNodes n (fun _ => ∅) = ∅ := by
      refine Finset.eq_empty_of_forall_notMem ?_
      rintro ⟨ino, k, v⟩ ht
      obtain ⟨-, hk, hv⟩ := mem_neededNodes.1 ht
      obtain rfl : k = 0 := Nat.le_zero.1 hk
      exact absurd hv (Finset.notMem_empty _)
    rw [hneeded, Finset.coe_empty]
    refine Set.eq_empty_iff_forall_notMem.2 ?_
    rintro t ⟨⟨hino, -⟩, h0⟩
    rw [hblocks] at hino
    have hroot : slots D (.root (.inode t.1)) = 0 := by
      rw [slots_inode, hinode t.1 hino]
      rfl
    exact h0 (by rw [node, hroot, walk_zero])

/-- A run of writes on a new file system. -/
theorem FreeUpTo.writes_fit {D : Disk} {fl : ℕ} (hf : FreeUpTo N n D fl N) (hfl : fl < N)
    (hn : n < N) {s₁ : σ} (hs₁ : A.HoldsOff ∅ D s₁) (ops : List WriteOp)
    (hops : ∀ op ∈ ops, op.offset < 2 ^ 32 - 1) :
    ((∃ s₂, treediskWrites ⟨below, belowIno⟩ ops s₁ =
        .ok (ops.map fun op => if op.ino < 64 * n then 0 else -1) s₂) ↔
      ∑ ino ∈ Finset.range (64 * n), blocksNeeded (offsetsOf ino ops) ≤ N - n - 1) ∧
    ((∃ s₂, treediskWrites ⟨below, belowIno⟩ ops s₁ = .error storeFull s₂) ↔
      N - n - 1 < ∑ ino ∈ Finset.range (64 * n), blocksNeeded (offsetsOf ino ops)) := by
  have hrun := treediskWrites_space ops D _ _ (hf.represents hfl hn) (hf.occupies hfl hn) hops
    s₁ hs₁
  simp only [Finset.empty_union] at hrun
  rw [← card_neededNodes, ← Set.ncard_coe_finset]
  cases hres : treediskWrites ⟨below, belowIno⟩ ops s₁ with
  | ok rs s₂ =>
      rw [hres] at hrun
      obtain ⟨d', ⟨rfl, ⟨F', hr'⟩, ho'⟩, -⟩ := hrun
      have hle := hr'.wf.ncard_usedNodes_le
      rw [ho'.used, hr'.blocks] at hle
      refine ⟨iff_of_true ⟨s₂, rfl⟩ hle, iff_of_false ?_ (Nat.not_lt.2 hle)⟩
      rintro ⟨s₃, hs₃⟩
      exact absurd hs₃ (by simp)
  | error e s₂ =>
      rw [hres] at hrun
      obtain ⟨rfl, hlt⟩ := hrun
      refine ⟨iff_of_false ?_ (Nat.not_le.2 hlt), iff_of_true ⟨s₂, rfl⟩ hlt⟩
      rintro ⟨s₃, hs₃⟩
      exact absurd hs₃ (by simp)

/-- **Writes go through if and only if their blocks fit.**  On a new file system with `n` inode
blocks, a run of writes at offsets below `2 ^ 32 - 1` returns if the blocks of the files, which
depend on the offsets and not on the order of the writes, are at most the `N - n - 1` blocks of the
file system, and ends in the panic of `treedisk_alloc_block` if they are more. -/
theorem writes_fit_iff (A : ArrayStore below belowIno N fun _ => False) {s₀ s₁ : σ}
    (hinv : A.Inv s₀) (hfresh : (A.view s₀ 0).nInodeblocks = 0) {ninodes : ℕ}
    (hcreate : treediskCreate below belowIno ninodes s₀ = .ok 0 s₁) (ops : List WriteOp)
    (hops : ∀ op ∈ ops, op.offset < 2 ^ 32 - 1) :
    ((∃ s₂, treediskWrites ⟨below, belowIno⟩ ops s₁ =
        .ok (ops.map fun op => if op.ino < 64 * inodeBlocksFor ninodes then 0 else -1) s₂) ↔
      ∑ ino ∈ Finset.range (64 * inodeBlocksFor ninodes), blocksNeeded (offsetsOf ino ops) ≤
        N - inodeBlocksFor ninodes - 1) ∧
    ((∃ s₂, treediskWrites ⟨below, belowIno⟩ ops s₁ = .error storeFull s₂) ↔
      N - inodeBlocksFor ninodes - 1 <
        ∑ ino ∈ Finset.range (64 * inodeBlocksFor ninodes), blocksNeeded (offsetsOf ino ops)) := by
  have hc := treediskCreate_free hfresh ninodes s₀ (A.holdsOff_view hinv)
  rw [hcreate] at hc
  rcases hc with ⟨hne, -⟩ | ⟨D, fl, ⟨-, hfl, hn, hf⟩, hs₁⟩
  · exact absurd hne (by decide)
  · exact hf.writes_fit hfl hn hs₁ ops hops

/-- On a RAM disk of five blocks, three are left for the files.  A file whose second block is
written takes two of them; one whose blocks 1, 2 and 3 are written would take four. -/
theorem writes_fit_iff_ramdisk :
    ∃ s₁, treediskCreate (ramdisk 5) 0 1 (fun _ => nullBlock) = .ok 0 s₁ ∧
      (∃ s₂, treediskWrites ⟨ramdisk 5, 0⟩ [⟨0, 1, fun _ => 7⟩] s₁ = .ok [0] s₂) ∧
      ∃ s₂, treediskWrites ⟨ramdisk 5, 0⟩ [⟨0, 3, fun _ => 7⟩, ⟨0, 1, fun _ => 8⟩,
        ⟨0, 2, fun _ => 9⟩] s₁ = .error storeFull s₂ := by
  obtain ⟨s₁, -, hc, -⟩ := ramdisk_run
  have hfits := fun ops => writes_fit_iff (ramdiskArray (by decide) 0) trivial rfl hc ops
  refine ⟨s₁, hc, (hfits _ (by simp)).1.2 (by decide +kernel), (hfits _ (by simp)).2.2
    (by decide +kernel)⟩

end Runs

end Egos
