/-
**What `treedisk_read` and `treedisk_write` do to the files.**

The updates of `Egos/TreediskLink.lean` are put together here, in the order of the code: a write
stores the new size in its copy of the inode, grows the tree, writes the inode back, walks down the
tree linking new blocks into the holes it meets, and writes the data block.  On the way the disk is
not well formed: the inode on it is older than the copy, and a new indirect block is linked before
its own contents have been written.  What is well formed at every moment is the disk with that one
block in place, so the loops are described by two disks, the one that is there and the well-formed
one.

A write can also stop on the way, because the free list is empty or because the store below fails.
The specifications say what the disk is then.

Main definitions:

* `Egos.Represents` — the disk of a file system between two calls, and the files it stores;
* `Egos.Behind`, `Egos.Pends` — the disk in the growth loop, and in the walk;
* `Egos.WriteStops` — where a write can stop.

Main results:

* `Egos.growLoop_spec`, `Egos.writeWalk_spec` — the two loops of `treedisk_write`;
* `Egos.treediskRead_spec`, `Egos.treediskWrite_spec` — **the files are sparse arrays**: a read and
  a write of the file system are a read and a write of the array of the inode.
-/

import Egos.SparseArray
import Egos.TreediskLink

set_option autoImplicit false

namespace Egos

open Function
open PointerForest FixedDigits Hoare

/-- The snapshot of the inode `ino` on the disk `D`. -/
def snapshotOf (D : Disk) (ino : ℕ) : Snapshot :=
  ⟨D 0, D (1 + ino / 64), 1 + ino / 64, Fin.ofNat 64 ino⟩

/-- **What the disk stores**: for every inode in range a sparse array of blocks. -/
structure Represents (N n : ℕ) (d : Disk) (F : ℕ → SparseArray Block nullBlock) : Prop where
  /-- Between two calls the trees are as high as the sizes call for. -/
  wf : Wf N d (heights d) ∅
  blocks : inodeBlocks d = n
  size : ∀ ino, ino < 64 * n → (F ino).size = fileSize d ino
  get : ∀ ino off, ino < 64 * n → (F ino).get off = contentAt d (heights d) ino off

theorem fileSize_lt (d : Disk) (ino : ℕ) : fileSize d ino < 2 ^ 32 := Block.word_lt _ _

/-- The heights of the inodes out of range are irrelevant. -/
theorem Wf.congr_heights {N : ℕ} {d : Disk} {h h' : ℕ → ℕ} {X : Set ℕ} (hw : Wf N d h X)
    (hh : ∀ ino, ino < 64 * inodeBlocks d → h' ino = h ino) : Wf N d h' X := by
  have hpos : Position (inodeBlocks d) h' = Position (inodeBlocks d) h := by
    funext r p
    cases r with
    | free => rfl
    | inode ino =>
        have hiff : (ino < 64 * inodeBlocks d ∧ p.length ≤ h' ino) =
            (ino < 64 * inodeBlocks d ∧ p.length ≤ h ino) := by
          refine propext (and_congr_right fun hino => ?_)
          rw [hh ino hino]
        exact hiff
  refine ⟨hw.room, hw.bound, hw.inodes, ?_⟩
  rw [hpos]
  exact hw.part

section Code

variable {σ : Type} {below : InodeStore σ} {belowIno N : ℕ} {Fails : String → Prop}
  {A : ArrayStore below belowIno N Fails}

/-! ### Reading -/

/-- **`treedisk_getsize`** on a well-formed disk: the size, as a signed number. -/
theorem treediskGetsize_wf {d : Disk} {h : ℕ → ℕ} {X : Set ℕ} {s : σ} (hw : Wf N d h X)
    (hs : A.HoldsOff ∅ d s) (ino : ℕ) :
    treediskGetsize ⟨below, belowIno⟩ ino s =
      if ino < 64 * inodeBlocks d then
        if fileSize d ino < 2 ^ 31 then (fileSize d ino : ℤ) else (fileSize d ino : ℤ) - 2 ^ 32
      else -1 := by
  rw [treediskGetsize, treediskGetSnapshot_eq hw hs]
  by_cases hino : ino < 64 * inodeBlocks d
  · rw [if_pos hino, if_pos hino]
    rfl
  · rw [if_neg hino, if_neg hino]

/-- **`treedisk_read`** on a well-formed disk reads the block at the offset, and fails for the inode
numbers and the offsets out of range. -/
theorem treediskRead_wf {d : Disk} {X : Set ℕ} {s : σ} (hw : Wf N d (heights d) X)
    (hs : A.HoldsOff ∅ d s) (ino off : ℕ) (hoff : off < 2 ^ 32) :
    treediskRead ⟨below, belowIno⟩ ino off s =
      if ino < 64 * inodeBlocks d ∧ off < fileSize d ino then some (contentAt d (heights d) ino off)
      else none := by
  rw [treediskRead, treediskGetSnapshot_eq hw hs]
  by_cases hino : ino < 64 * inodeBlocks d
  · rw [if_pos hino]
    change (if off ≥ fileSize d ino then none
      else readWalk ⟨below, belowIno⟩ off s (heights d ino) (node (slots d) (.inode ino) [])) = _
    by_cases hlt : off < fileSize d ino
    · have hpow : off < 128 ^ heights d ino := lt_pow_nlevels (fileSize_lt d ino) hlt
      rw [if_neg (by omega), if_pos ⟨hino, hlt⟩, readWalk_eq hw hs hino hoff _ [] (by simp),
        contentAt, dataAt, if_pos hpow]
      rfl
    · rw [if_pos (by omega), if_neg fun h => hlt h.2]
  · rw [if_neg hino, if_neg fun h => hino h.1]

/-- **`treedisk_read`** reads the sparse arrays, and fails for the inode numbers out of range. -/
theorem treediskRead_spec {d : Disk} {n : ℕ} {F : ℕ → SparseArray Block nullBlock} {s : σ}
    (hr : Represents N n d F) (hs : A.HoldsOff ∅ d s) (ino off : ℕ) (hoff : off < 2 ^ 32) :
    treediskRead ⟨below, belowIno⟩ ino off s =
      if ino < 64 * n then (F ino).read off else none := by
  rw [treediskRead_wf hr.wf hs ino off hoff, hr.blocks]
  by_cases hino : ino < 64 * n
  · rw [if_pos hino, SparseArray.read, hr.size ino hino, hr.get ino off hino]
    simp only [hino, true_and]
  · rw [if_neg hino, if_neg fun h => hino h.1]

/-! ### Growing the tree -/

/-- The heights after several rounds of growth. -/
theorem growHeight_growHeight (h : ℕ → ℕ) (ino k l : ℕ) :
    growHeight (growHeight h ino k) ino l = growHeight h ino (k + l) := by
  simp [growHeight, Nat.add_assoc]

theorem growHeight_zero (h : ℕ → ℕ) (ino : ℕ) : growHeight h ino 0 = h := by
  simp [growHeight]

/-- The snapshot after a push holds the new root. -/
theorem snapshotOf_pushDisk {D : Disk} (ino : ℕ) {b : ℕ} (h0 : 0 ≠ b) (hc : 1 + ino / 64 ≠ b) :
    snapshotOf (pushDisk D ino b) ino =
      ⟨D 0, (D (1 + ino / 64)).setWord (Block.rootIdx (Fin.ofNat 64 ino)) b, 1 + ino / 64,
        Fin.ofNat 64 ino⟩ := by
  have hsup : pushDisk D ino b 0 = D 0 := by
    rw [pushDisk, linkDisk, update_of_ne h0, update_of_ne (by omega)]
  have hblk : pushDisk D ino b (1 + ino / 64) =
      (D (1 + ino / 64)).setWord (Block.rootIdx (Fin.ofNat 64 ino)) b := by
    rw [pushDisk, linkDisk, update_of_ne hc, update_self]
  rw [snapshotOf, hsup, hblk]

/-- In the growth loop, the disk `V` lags behind the disk `D` that the copy of the inode belongs to:
the inode block on `V` is the old one.  The trees on `V` are those of `V₀`, and the blocks in `X`
have been taken from the free list. -/
structure Behind (N : ℕ) (h₀ : ℕ → ℕ) (ino : ℕ) (V₀ D V : Disk) (X : Set ℕ) : Prop where
  disk : D = update V (1 + ino / 64) (D (1 + ino / 64))
  wf : Wf N V h₀ X
  same : SameData V₀ h₀ V h₀

section Behind

variable {h h₀ : ℕ → ℕ} {ino : ℕ} {V₀ D V : Disk} {X : Set ℕ}

theorem Behind.super (hb : Behind N h₀ ino V₀ D V X) : D 0 = V 0 := by
  rw [hb.disk, update_of_ne (by omega)]

/-- The same block is taken from the free lists of both disks. -/
theorem Behind.alloc (hb : Behind N h₀ ino V₀ D V X) (hw : Wf N D h ∅)
    (hino : ino < 64 * inodeBlocks D) : allocNo D = allocNo V ∧ allocDisk D =
      update (allocDisk V) (1 + ino / 64) (D (1 + ino / 64)) := by
  have hv : Position (inodeBlocks D) h (.inode ino) [] := position_inode hino (Nat.zero_le _)
  have hfree := (slotAt_root D ino).ne_freeList hw hv
  rw [hb.super] at hfree
  have halloc := alloc_update (d := V) (c := 1 + ino / 64) (by omega) hfree.symm (D (1 + ino / 64))
  rw [← hb.disk] at halloc
  exact halloc

/-- A round of the growth loop: a block is taken from the free list and written. -/
theorem Behind.push (hb : Behind N h₀ ino V₀ D V X) (hw : Wf N D h ∅)
    (hino : ino < 64 * inodeBlocks D) (hne : (D 0).freeList ≠ 0) :
    Behind N h₀ ino V₀ (pushDisk (allocDisk D) ino (allocNo D))
      (update (allocDisk V) (allocNo V)
        (nullBlock.setWord 0 ((D (1 + ino / 64)).inodeRoot (Fin.ofNat 64 ino))))
      (insert (allocNo V) X) := by
  obtain ⟨hno, hdisk⟩ := hb.alloc hw hino
  have hmem := hw.allocNo_mem hne
  have hneV : (V 0).freeList ≠ 0 := by rw [← hb.super]; exact hne
  have hv : Position (inodeBlocks D) h (.inode ino) [] := position_inode hino (Nat.zero_le _)
  have hkeep := (hw.alloc_keeps hne hv).1
  have hib : 1 + ino / 64 ≠ allocNo D := by omega
  obtain ⟨hwV, hsameV⟩ := (hb.wf.alloc_insert hneV).1.write_detached (Set.mem_insert (allocNo V) X)
    (nullBlock.setWord 0 ((D (1 + ino / 64)).inodeRoot (Fin.ofNat 64 ino)))
  refine ⟨?_, hwV, hb.same.trans ((hb.wf.alloc_sameData hneV).trans hsameV)⟩
  rw [pushDisk, linkDisk, hkeep, update_of_ne hib, update_self, ← hno]
  conv_lhs => rw [hdisk, update_idem]
  exact update_comm hib _ _ _

end Behind

/-- **The growth loop** makes the tree of `ino` grow by `k` levels.  Wherever it stops, the files on
the disk are the old ones. -/
theorem growLoop_spec {h₀ : ℕ → ℕ} {V₀ : Disk} (ino : ℕ) :
    ∀ k D V h X, Wf N D h ∅ → ino < 64 * inodeBlocks D → Behind N h₀ ino V₀ D V X →
      Triple (A.HoldsOff ∅ V) (growLoop ⟨below, belowIno⟩ k (snapshotOf D ino))
        (fun snap s => ∃ D' V' X', (snap = snapshotOf D' ino ∧ Wf N D' (growHeight h ino k) ∅ ∧
          SameData D h D' (growHeight h ino k) ∧ Behind N h₀ ino V₀ D' V' X' ∧
          ((k = 0 ∧ D' = D) ∨ (0 < k ∧ node (slots D') (.inode ino) [] ≠ 0))) ∧ A.HoldsOff ∅ V' s)
        (fun e s => WriteFails Fails e ∧
          ∃ V' X', (Wf N V' h₀ X' ∧ SameData V₀ h₀ V' h₀) ∧ A.HoldsOff ∅ V' s) := by
  intro k
  induction k with
  | zero =>
      intro D V h X hw _ hb
      rw [growLoop, growHeight_zero]
      exact Triple.pure fun s hs =>
        ⟨D, V, X, ⟨rfl, hw, SameData.refl D h, hb, Or.inl ⟨rfl, rfl⟩⟩, hs⟩
  | succ k ih =>
      intro D V h X hw hino hb
      have hv : Position (inodeBlocks D) h (.inode ino) [] := position_inode hino (Nat.zero_le _)
      obtain ⟨hno, hdisk⟩ := hb.alloc hw hino
      have hroom := hw.room
      rw [growLoop]
      refine Triple.bind ((treediskAllocBlock_spec (V := V) (by omega) hb.wf.freeList_lt _
        hb.super).conseq (fun _ hs => hs) (fun _ _ hq => hq) ?_) fun r => Triple.of_pre ?_
      · rintro e s ⟨he, hs⟩
        exact ⟨he.imp And.left id, V, X, ⟨hb.wf, hb.same⟩, hs⟩
      rintro ⟨hneV, rfl⟩
      have hne : (D 0).freeList ≠ 0 := by rw [hb.super]; exact hneV
      obtain ⟨hw₁, hn₁⟩ := hw.alloc hne
      have hkeep := (hw.alloc_keeps hne hv).1
      have hmem := hw.allocNo_mem hne
      have hino₁ : ino < 64 * inodeBlocks (allocDisk D) := by rw [hn₁]; exact hino
      have hw₂ := hw₁.push hino₁
      have hsame := (hw.alloc_sameData hne).trans (hw₁.push_sameData hino₁)
      have hroot : node (slots (pushDisk (allocDisk D) ino (allocNo D))) (.inode ino) [] ≠ 0 := by
        rw [node_nil, (hw₁.push_slots hino₁).1]
        omega
      have hsnap := snapshotOf_pushDisk (D := allocDisk D) ino (b := allocNo D) (by omega)
        (by omega)
      have hsup : allocDisk V 0 = allocDisk D 0 := by
        rw [hdisk, update_of_ne (by omega)]
      rw [hkeep] at hsnap
      change Triple _ (writeOrPanic below belowIno (allocNo V)
        (nullBlock.setWord 0 ((D (1 + ino / 64)).inodeRoot (Fin.ofNat 64 ino))) _ >>= fun _ =>
          growLoop _ k ⟨allocDisk V 0, (D (1 + ino / 64)).setWord (Block.rootIdx (Fin.ofNat 64 ino))
            (allocNo V), 1 + ino / 64, Fin.ofNat 64 ino⟩) _ _
      rw [← hno, hsup, ← hsnap, hno]
      have hb₁ := hb.push hw hino hne
      refine Triple.bind ((writeOrPanic_update (allocDisk V) (allocNo V) _ _
        (by omega)).conseq (fun _ hs => hs) (fun _ _ hq => hq) ?_) fun _ => ?_
      · rintro e s ⟨he, hs⟩
        exact ⟨Or.inr he, _, _, ⟨(hb.wf.alloc_insert hneV).1,
          hb.same.trans (hb.wf.alloc_sameData hneV)⟩, hs⟩
      rw [← hno] at hb₁ ⊢
      refine (ih _ _ (growHeight h ino 1) _ hw₂ (by rw [hsame.blocks]; exact hino)
        hb₁).conseq (fun _ hs => hs) ?_ fun _ _ he => he
      rintro snap s ⟨D', V', X', ⟨hsnap', hw', hsame', hb', hk⟩, hs⟩
      rw [growHeight_growHeight, Nat.add_comm] at hw' hsame'
      refine ⟨D', V', X', ⟨hsnap', hw', hsame.trans hsame', hb', Or.inr ⟨by omega, ?_⟩⟩, hs⟩
      rcases hk with ⟨-, rfl⟩ | ⟨-, hk⟩
      · exact hroot
      · exact hk

/-! ### Walking down -/

/-- The number of levels below the first hole on the way to an offset, from the block `b` with `n`
levels below it.  It is `0` if there is no hole, or only the data block is missing. -/
def holeLevels (d : Disk) (offset : ℕ) : ℕ → ℕ → ℕ
  | nlevels, b =>
      if b = 0 then nlevels
      else
        match nlevels with
        | 0 => 0
        | n + 1 => holeLevels d offset n ((d b).word (refIndex offset n))

theorem holeLevels_zero (d : Disk) (offset n : ℕ) : holeLevels d offset n 0 = n := by
  unfold holeLevels
  rw [if_pos rfl]

theorem holeLevels_succ (d : Disk) (offset n : ℕ) {b : ℕ} (hb : b ≠ 0) :
    holeLevels d offset (n + 1) b = holeLevels d offset n ((d b).word (refIndex offset n)) := by
  rw [holeLevels, if_neg hb]

/-- A new indirect block of the tree of `ino` has been linked at the position `q`, with `m + 1`
levels at and below it, but not been written: `D` is the disk on which it is empty. -/
structure Unwritten (A : ArrayStore below belowIno N Fails) (h : ℕ → ℕ) (ino : ℕ)
    (path : List (Fin 128)) (D : Disk) (s : σ) (q : List (Fin 128)) (m : ℕ) : Prop where
  length : q.length + (m + 1) = h ino
  onPath : ∃ r, path = q ++ r
  ne : node (slots D) (.inode ino) q ≠ 0
  null : D (node (slots D) (.inode ino) q) = nullBlock
  holds : A.HoldsOff {node (slots D) (.inode ino) q} D s

/-- **Where the walk can stop.**  If the free list is empty, the disk is well formed and the data
are the old ones.  If the store below fails, one block may be taken and not linked, and one indirect
block be linked and not written; `P` is what is known of its contents. -/
def WalkStops (A : ArrayStore below belowIno N Fails) (P : ℕ → Block → Prop) (h : ℕ → ℕ) (ino : ℕ)
    (path : List (Fin 128)) (D : Disk) (e : String) (s : σ) : Prop :=
  (e = storeFull ∧ ∃ D', (Wf N D' h ∅ ∧ SameData D h D' h) ∧ A.HoldsOff ∅ D' s) ∨
    (Fails e ∧ ∃ D' X, (Wf N D' h X ∧ SameExcept h ino path D D') ∧
      (A.HoldsOff ∅ D' s ∨ ∃ q m, Unwritten A h ino path D' s q m ∧
        P m (A.view s (node (slots D') (.inode ino) q))))

/-- In the walk, the disk `V` is the disk `D`, or the block `c` that holds the next reference has
been linked and not been written. -/
def Pends (P : ℕ → Block → Prop) (ino : ℕ) (D V : Disk) (p : List (Fin 128)) (c : ℕ) (i : Fin 128)
    (n : ℕ) : Prop :=
  V = D ∨ ∃ q, p = q ++ [i] ∧ node (slots D) (.inode ino) q = c ∧
    D = update V c nullBlock ∧ P n (V c)

section Pends

variable {P : ℕ → Block → Prop} {h : ℕ → ℕ} {ino : ℕ} {D V : Disk} {p : List (Fin 128)} {c : ℕ}
  {i : Fin 128} {n : ℕ} {X : Set ℕ}

/-- The disks differ at the block that is not written, if at all. -/
theorem Pends.disk (hpend : Pends P ino D V p c i n) : D = update V c (D c) := by
  rcases hpend with rfl | ⟨q, -, -, hD, -⟩
  · rw [update_eq_self]
  · have hc : D c = nullBlock := by rw [hD, update_self]
    rw [hc]
    exact hD

theorem Pends.alloc_eq (hpend : Pends P ino D V p c i n) (hc : 0 < c)
    (hfree : (D 0).freeList ≠ c) : V 0 = D 0 ∧ allocNo V = allocNo D ∧
      allocDisk D = update (allocDisk V) c (D c) ∧ allocDisk V c = V c := by
  have hdisk := hpend.disk
  have hsup : V 0 = D 0 := by rw [hdisk, update_of_ne (by omega)]
  rw [← hsup] at hfree
  obtain ⟨hno, hd⟩ := alloc_update (d := V) (c := c) (by omega) hfree.symm (D c)
  rw [← hdisk] at hno hd
  refine ⟨hsup, hno.symm, hd, ?_⟩
  rw [allocDisk]
  split
  · exact update_of_ne (by omega) _ _
  · exact update_of_ne hfree.symm _ _

/-- Taking a block from the free list leaves the block that is not written alone. -/
theorem Pends.alloc (hpend : Pends P ino D V p c i n) (hw : Wf N D h X)
    (hv : Position (inodeBlocks D) h (.inode ino) p) (hne : (D 0).freeList ≠ 0) (hc : 0 < c)
    (hfree : (D 0).freeList ≠ c) : Pends P ino (allocDisk D) (allocDisk V) p c i n := by
  obtain ⟨-, -, hd, hVc⟩ := hpend.alloc_eq hc hfree
  rcases hpend with rfl | ⟨q, rfl, hq, hD, hP⟩
  · exact Or.inl rfl
  · refine Or.inr ⟨q, rfl, ?_, ?_, by rw [hVc]; exact hP⟩
    · rw [hw.alloc_node hne (position_closed _ _ _ _ _ hv), hq]
    · rw [hd, hD, update_self]

/-- The walk stops at a failure of the store below. -/
theorem Pends.walkStops (hpend : Pends P ino D V p c i n) (hw : Wf N D h X) (hc : 0 < c)
    (hlen : p.length + n = h ino) (rest : List (Fin 128)) {D₀ : Disk}
    (hexc : SameExcept h ino (p ++ rest) D₀ D) {e : String} {s : σ} (he : Fails e)
    (hs : A.HoldsOff ∅ V s) : WalkStops A P h ino (p ++ rest) D₀ e s := by
  refine Or.inr ⟨he, D, X, ⟨hw, hexc⟩, ?_⟩
  rcases hpend with rfl | ⟨q, rfl, rfl, hD, hP⟩
  · exact Or.inl hs
  · refine Or.inr ⟨q, n, ⟨?_, ⟨[i] ++ rest, List.append_assoc _ _ _⟩, by omega, ?_, ?_⟩, ?_⟩
    · simp only [List.length_append, List.length_singleton] at hlen
      omega
    · have hnull := congrFun hD (node (slots D) (.inode ino) q)
      rw [update_self] at hnull
      exact hnull
    · have hs' := hs.update (node (slots D) (.inode ino) q) nullBlock
      rw [← hD, insert_empty_eq] at hs'
      exact hs'
    · rw [hs.view_eq]
      exact hP

theorem Pends.update_allocDisk (hpend : Pends P ino D V p c i n) (hc : 0 < c)
    (hfree : (D 0).freeList ≠ c) (blk : Block) :
    update (allocDisk D) c blk = update (allocDisk V) c blk := by
  obtain ⟨-, -, hdV, -⟩ := hpend.alloc_eq hc hfree
  rw [hdV, update_idem]

/-- The walk takes a block for a hole. -/
theorem Pends.allocBlock (hpend : Pends P ino D V p c i n) (hw : Wf N D h ∅)
    (hv : Position (inodeBlocks D) h (.inode ino) p) (hlen : p.length + n = h ino)
    (hs : SlotAt D ino p c i) (hlast : (D 0).freeList = 0 → V = D) {snap : Snapshot}
    (hsnap : snap.superblock = D 0) (rest : List (Fin 128)) :
    Triple (A.HoldsOff ∅ V) (treediskAllocBlock ⟨below, belowIno⟩ snap)
      (fun r s => ((D 0).freeList ≠ 0 ∧
          r = (allocNo D, { snap with superblock := allocDisk D 0 })) ∧
        A.HoldsOff ∅ (allocDisk V) s)
      (fun e s => WalkStops A P h ino (p ++ rest) D e s) := by
  have hc := hs.lt hw hv
  obtain ⟨hsup, hno, hdV, -⟩ := hpend.alloc_eq hc.1 (hs.ne_freeList hw hv)
  have hroom := hw.room
  refine (treediskAllocBlock_spec (V := V) (by omega) (by rw [hsup]; exact hw.freeList_lt) _
    (hsnap.trans hsup.symm)).conseq (fun _ hs => hs) ?_ ?_
  · rintro r s ⟨⟨hne, hr⟩, hsd⟩
    have hsup' : allocDisk D 0 = allocDisk V 0 := by rw [hdV, update_of_ne (by omega)]
    rw [hsup] at hne
    rw [hno, ← hsup'] at hr
    exact ⟨⟨hne, hr⟩, hsd⟩
  · rintro e s ⟨⟨rfl, hempty⟩ | he, hsd⟩
    · rw [hlast (by rw [← hsup]; exact hempty)] at hsd
      exact Or.inl ⟨rfl, D, ⟨hw, SameData.refl D h⟩, hsd⟩
    · exact hpend.walkStops hw hc.1 hlen rest (SameExcept.refl _ _ _ _) he hsd

/-- The walk writes the reference to the block that it has taken. -/
theorem Pends.writeSlot (hpend : Pends P ino D V p c i n) (hw : Wf N D h ∅)
    (hv : Position (inodeBlocks D) h (.inode ino) p) (hlen : p.length + n = h ino)
    (hs : SlotAt D ino p c i) (hne : (D 0).freeList ≠ 0) (b : Block) (msg : String)
    (rest : List (Fin 128)) :
    Triple (A.HoldsOff ∅ (allocDisk V)) (writeOrPanic below belowIno c b msg)
      (fun _ s => A.HoldsOff ∅ (update (allocDisk V) c b) s)
      (fun e s => WalkStops A P h ino (p ++ rest) D e s) := by
  have hc := hs.lt hw hv
  obtain ⟨hw₁, -, -, -⟩ := hw.alloc_slotAt hne hs hv
  refine (writeOrPanic_update (allocDisk V) c b msg hc.2).conseq (fun _ hs => hs)
    (fun _ _ hq => hq) ?_
  rintro e s ⟨he, hsd⟩
  exact (hpend.alloc hw hv hne hc.1 (hs.ne_freeList hw hv)).walkStops hw₁ hc.1 hlen rest
    (hw.alloc_sameExcept hne ino _) he hsd

end Pends

/-- **The walk of `treedisk_write`** from a position `p` with `n` levels below it returns the block
at the bottom level, which it links if it was a hole.  The block that holds the reference may be a
new indirect block that is still to be written. -/
theorem writeWalk_spec {P : ℕ → Block → Prop} {h : ℕ → ℕ} {ino off : ℕ} (hoff : off < 2 ^ 32) :
    ∀ n D V p c i snap, Wf N D h ∅ → Position (inodeBlocks D) h (.inode ino) p →
      p.length + n = h ino → SlotAt D ino p c i → snap.superblock = D 0 →
      Pends P ino D V p c i n → ((D 0).freeList = 0 → V = D) →
      (V = D ∨ (D c).word i = 0) →
      (∀ k m b, HandedOut D k b → k + m + 1 = holeLevels D off n ((D c).word i) → P m b) →
      Triple (A.HoldsOff ∅ V) (writeWalk ⟨below, belowIno⟩ off n snap (D c) i c)
        (fun b s => ∃ D', (Wf N D' h ∅ ∧ SameExcept h ino (p ++ digits 128 n off) D D' ∧
          node (slots D') (.inode ino) (p ++ digits 128 n off) = b ∧ b ≠ 0) ∧ A.HoldsOff ∅ D' s)
        (fun e s => WalkStops A P h ino (p ++ digits 128 n off) D e s) := by
  intro n
  induction n with
  | zero =>
      intro D V p c i snap hw hv hlen hs hsnap hpend hlast hVD hP
      have hc := hs.lt hw hv
      have hfree := hs.ne_freeList hw hv
      rw [digits_zero, writeWalk]
      by_cases h0 : (D c).word i = 0
      · -- a hole: the block is allocated and linked
        rw [if_pos h0]
        refine Triple.bind (hpend.allocBlock hw hv hlen hs hlast hsnap []) fun r =>
          Triple.of_pre ?_
        rintro ⟨hne, rfl⟩
        obtain ⟨hw₁, hsl, hDc, hv₁⟩ := hw.alloc_slotAt hne hs hv
        have hb0 := hw₁.part.ne_zero (Set.mem_singleton (allocNo D))
        refine Triple.bind (hpend.writeSlot hw hv hlen hs hne _ _ []) fun _ => ?_
        rw [List.append_nil]
        rw [← hDc] at h0 ⊢
        refine Triple.pure fun s hsd => ⟨linkDisk (allocDisk D) c i (allocNo D)
          (allocDisk D (allocNo D)), ⟨hw₁.link hsl hv₁ h0 (fun hlt => absurd hlt (by omega)), ?_,
          (hw₁.link_node hsl hv₁ h0 (fun hlt => absurd hlt (by omega))).1, hb0⟩, ?_⟩
        · exact (hw.alloc_sameExcept hne ino p).trans
            (hw₁.link_sameExcept hsl hv₁ h0 (fun hlt => absurd hlt (by omega)) fun _ => rfl)
        · have hne' := hsl.ne_detached hw₁ hv₁
          have hself : update (update (allocDisk D) c
              ((allocDisk D c).setWord i (allocNo D))) (allocNo D) (allocDisk D (allocNo D)) =
              update (allocDisk D) c ((allocDisk D c).setWord i (allocNo D)) := by
            refine update_eq_self_iff.2 ?_
            rw [update_of_ne hne'.symm]
          rw [linkDisk, hself, hpend.update_allocDisk hc.1 hfree]
          exact hsd
      · rw [if_neg h0]
        obtain rfl := hVD.resolve_right h0
        rw [List.append_nil]
        exact Triple.pure fun s hsd => ⟨V, ⟨hw, SameExcept.refl h ino p V, hs.word_eq.symm, h0⟩,
          hsd⟩
  | succ n ih =>
      intro D V p c i snap hw hv hlen hs hsnap hpend hlast hVD hP
      have hc := hs.lt hw hv
      have hfree := hs.ne_freeList hw hv
      have hino : ino < 64 * inodeBlocks D := hv.1
      obtain ⟨-, -, hdV, -⟩ := hpend.alloc_eq hc.1 hfree
      have happ : p ++ digits 128 (n + 1) off = (p ++ [refIndex off n]) ++ digits 128 n off := by
        rw [digits_eq_refIndex hoff, List.append_assoc, List.singleton_append]
      have hlen' : (p ++ [refIndex off n]).length + n = h ino := by
        simp only [List.length_append, List.length_singleton]
        omega
      rw [writeWalk]
      by_cases h0 : (D c).word i = 0
      · -- a hole: an indirect block is linked, whose contents are still to be written
        rw [if_pos h0]
        refine Triple.bind (hpend.allocBlock hw hv hlen hs hlast hsnap _) fun r =>
          Triple.of_pre ?_
        rintro ⟨hne, rfl⟩
        obtain ⟨hw₁, hsl, hDc, hv₁⟩ := hw.alloc_slotAt hne hs hv
        have hb0 := hw₁.part.ne_zero (Set.mem_singleton (allocNo D))
        have hcb := hsl.ne_detached hw₁ hv₁
        have hnull : p.length < h ino → ∀ j, nullBlock.word j = 0 := fun _ j => rfl
        have h0' : (allocDisk D c).word i = 0 := by rw [hDc]; exact h0
        have hw₂ := hw₁.link hsl hv₁ h0' hnull
        have hnode := (hw₁.link_node hsl hv₁ h0' hnull).1
        have hlink : ∀ p', SameExcept h ino p' (allocDisk D)
            (linkDisk (allocDisk D) c i (allocNo D) nullBlock) := fun p' =>
          hw₁.link_sameExcept hsl hv₁ h0' hnull fun hl => absurd hl (by omega)
        have hexc := fun p' => (hw.alloc_sameExcept hne ino p').trans (hlink p')
        -- the disk with the new block linked, and the one on which it is empty
        generalize hD₂ : linkDisk (allocDisk D) c i (allocNo D) nullBlock = D₂ at hw₂ hnode hexc
        have hV₂ : D₂ = update (update (allocDisk V) c
            ((allocDisk D c).setWord i (allocNo D))) (allocNo D) nullBlock := by
          rw [← hD₂, linkDisk, hpend.update_allocDisk hc.1 hfree]
        have hsup₂ : D₂ 0 = allocDisk D 0 := by
          have hb' : allocNo D ≠ 0 := hb0
          rw [← hD₂, linkDisk, update_of_ne hb'.symm, update_of_ne (by omega)]
        have hself : D₂ (allocNo D) = nullBlock := by rw [hV₂, update_self]
        have hstale : update (allocDisk V) c ((allocDisk D c).setWord i (allocNo D))
            (allocNo D) = D (allocNo D) := by
          rw [update_of_ne (Ne.symm hcb), ← hw.allocDisk_allocNo hne, hdV,
            update_of_ne (Ne.symm hcb)]
        have key := ih D₂ (update (allocDisk V) c ((allocDisk D c).setWord i (allocNo D)))
          (p ++ [refIndex off n]) (allocNo D) (refIndex off n)
          { snap with superblock := allocDisk D 0 } hw₂
          (position_inode (by rw [(hexc []).blocks]; exact hino) (by omega)) hlen'
          (Or.inr ⟨p, rfl, hnode, hb0⟩) hsup₂.symm
          (Or.inr ⟨p, rfl, hnode, hV₂, ?_⟩) ?_ (Or.inr (by rw [hself]; rfl)) ?_
        · rw [hself] at key
          rw [← hDc]
          refine Triple.bind (hpend.writeSlot hw hv hlen hs hne _ _ _) fun _ => ?_
          rw [happ]
          refine key.conseq (fun _ hsd => hsd) ?_ ?_
          · rintro b s ⟨D', ⟨hw', hexc', hnode', hb'⟩, hsd⟩
            exact ⟨D', ⟨hw', (hexc _).trans hexc', hnode', hb'⟩, hsd⟩
          · rintro e s (⟨he, D', ⟨hw', hsame'⟩, hsd⟩ | ⟨he, D', X, ⟨hw', hexc'⟩, hsd⟩)
            · refine Or.inl ⟨he, D', ⟨hw', ?_⟩, hsd⟩
              refine SameData.trans (SameExcept.sameData (hexc p) ?_) hsame'
              omega
            · exact Or.inr ⟨he, D', X, ⟨hw', (hexc _).trans hexc'⟩, hsd⟩
        · rw [hstale]
          exact hP 0 n _ (.zero hne) (by rw [h0, holeLevels_zero]; omega)
        · -- the last block of the free list is empty
          intro hempty
          rw [hsup₂] at hempty
          rw [hV₂]
          refine (update_eq_self_iff.2 ?_).symm
          rw [hstale]
          exact (hw.allocNo_last hne hempty).symm
        · intro k m b hout hkm
          rw [hself, Block.word_nullBlock, holeLevels_zero] at hkm
          have hfree₂ : SameFree D₂ (allocDisk D) := by
            rw [← hD₂]
            exact hw₁.link_sameFree hsl hv₁ h0' hnull
          refine hP (k + 1) m b (.succ hne (hfree₂.handedOut hout hw₂)) ?_
          rw [h0, holeLevels_zero]
          omega
      · -- the indirect block exists: it is read
        rw [if_neg h0]
        obtain rfl := hVD.resolve_right h0
        have hnode := hs.word_eq
        have hblt := hw.node_lt hv (hnode ▸ h0)
        rw [← hnode] at hblt
        refine Triple.get_bind fun s₀ hs₀ => ?_
        rw [A.read_holdsOff hs₀ hblt.2 (Set.notMem_empty _), happ]
        refine (ih V V (p ++ [refIndex off n]) ((V c).word i) (refIndex off n) snap hw
          (position_inode hino (by omega)) hlen' (Or.inr ⟨p, rfl, hnode.symm, h0⟩) hsnap
          (Or.inl rfl) (fun _ => rfl) (Or.inl rfl) ?_).conseq (fun s hs => hs ▸ hs₀)
          (fun _ _ hq => hq) fun _ _ he => he
        intro k m b hout hkm
        exact hP k m b hout (by rw [holeLevels_succ _ _ _ h0]; exact hkm)

/-! ### The whole write -/

/-- The contents of two disks agree, except for one block. -/
structure Written (ino off : ℕ) (blk : Block) (d : Disk) (h : ℕ → ℕ) (d' : Disk) (h' : ℕ → ℕ) :
    Prop where
  blocks : inodeBlocks d' = inodeBlocks d
  size : ∀ ino', ino' < 64 * inodeBlocks d → fileSize d' ino' = fileSize d ino'
  content : ∀ ino' off', ino' < 64 * inodeBlocks d → contentAt d' h' ino' off' =
    if ino' = ino ∧ off' = off then blk else contentAt d h ino' off'

/-- Overwriting the block at the bottom of a walk, after what the walk may have changed. -/
theorem SameExcept.written {D D' : Disk} {h : ℕ → ℕ} {ino off : ℕ} (hw' : Wf N D' h ∅)
    (hexc : SameExcept h ino (digits 128 (h ino) off) D D') (hino : ino < 64 * inodeBlocks D)
    (hoff : off < 128 ^ h ino) {b : ℕ}
    (hb : node (slots D') (.inode ino) (digits 128 (h ino) off) = b) (hb0 : b ≠ 0) (blk : Block) :
    Wf N (update D' b blk) h ∅ ∧
      Written ino off blk D h (update D' b blk) h := by
  subst hb
  have hn := hexc.blocks
  have hv : Position (inodeBlocks D') h (.inode ino) (digits 128 (h ino) off) :=
    position_digits (by rw [hn]; exact hino) off
  obtain ⟨hw'', hnode⟩ := hw'.store hv (length_digits _ _) hb0 blk
  have hlt := hw'.node_lt hv hb0
  refine ⟨hw'', ⟨(inodeBlocks_update hb0 blk).trans hn, ?_, ?_⟩⟩
  · intro ino' hino'
    rw [fileSize_update hlt.1 _ (by rw [hn]; exact hino'), hexc.size ino' hino']
  · intro ino' off' hino'
    have hv' : Position (inodeBlocks D') h (.inode ino') (digits 128 (h ino') off') :=
      position_digits (by rw [hn]; exact hino') off'
    by_cases hsame : ino' = ino ∧ off' = off
    · obtain ⟨rfl, rfl⟩ := hsame
      rw [if_pos ⟨rfl, rfl⟩, contentAt, dataAt, if_pos hoff, hnode _ _ hv', if_neg hb0,
        update_self]
    rw [if_neg hsame, contentAt, contentAt, dataAt, dataAt, hnode _ _ hv']
    by_cases hoff' : off' < 128 ^ h ino'
    · rw [if_pos hoff', if_pos hoff']
      have hne : ¬ (ino' = ino ∧ digits 128 (h ino') off' = digits 128 (h ino) off) := by
        rintro ⟨rfl, he⟩
        exact hsame ⟨rfl, digits_inj hoff' hoff he⟩
      obtain ⟨hsn, hkeep⟩ := hexc.nodes ino' _ (position_digits hino' off') (length_digits _ _) hne
      rw [hsn]
      by_cases h0 : node (slots D) (.inode ino') (digits 128 (h ino') off') = 0
      · rw [if_pos h0, if_pos h0]
      · rw [if_neg h0, if_neg h0, update_of_ne, hkeep h0]
        -- another position holds another block
        intro he
        rw [← hsn] at he h0
        obtain ⟨hr, hd⟩ := hw'.part.inj hv' hv h0 he
        exact hne ⟨Root.inode.inj hr, hd⟩
    · rw [if_neg hoff', if_neg hoff', if_pos rfl, if_pos rfl]

theorem writeData_spec {P : ℕ → Block → Prop} {D : Disk} {h : ℕ → ℕ} {ino off : ℕ} (hw : Wf N D h ∅)
    (hino : ino < 64 * inodeBlocks D) (hoff : off < 2 ^ 32) (hlt : off < 128 ^ h ino)
    (hP : ∀ k m b, HandedOut D k b →
      k + m + 1 = holeLevels D off (h ino) (node (slots D) (.inode ino) []) → P m b) (blk : Block) :
    Triple (A.HoldsOff ∅ D)
      (writeData ⟨below, belowIno⟩ off blk (h ino) (snapshotOf D ino))
      (fun r s => ∃ D', (r = 0 ∧ Wf N D' h ∅ ∧ Written ino off blk D h D' h) ∧ A.HoldsOff ∅ D' s)
      (fun e s => WalkStops A P h ino (digits 128 (h ino) off) D e s) := by
  have hwalk := writeWalk_spec (A := A) hoff (h ino) D D [] (1 + ino / 64) (Block.rootIdx
    (Fin.ofNat 64 ino)) (snapshotOf D ino) hw (position_inode hino (Nat.zero_le _)) (by simp)
    (slotAt_root D ino) rfl (Or.inl rfl) (fun _ => rfl) (Or.inl rfl) hP
  refine Triple.bind hwalk fun b => Triple.of_exists fun D' => Triple.of_pre ?_
  rintro ⟨hw', hexc, hb, hb0⟩
  rw [List.nil_append] at hexc hb
  obtain ⟨hw'', hwr⟩ := hexc.written hw' hino hlt hb hb0 blk
  have hbN : b < N := by
    have hv : Position (inodeBlocks D') h (.inode ino) (digits 128 (h ino) off) :=
      position_digits (by rw [hexc.blocks]; exact hino) off
    exact hb ▸ (hw'.node_lt hv (hb.symm ▸ hb0)).2
  refine Triple.bind ((writeOrPanic_update D' b blk _ hbN).conseq (fun _ hs => hs)
    (fun _ _ hq => hq) ?_) fun _ => ?_
  · rintro e s ⟨he, hs⟩
    exact Or.inr ⟨he, D', ∅, ⟨hw', hexc⟩, Or.inl hs⟩
  · exact Triple.pure fun s hs => ⟨_, ⟨rfl, hw'', hwr⟩, hs⟩

/-- What the blocks of the tree of `ino` hold determines where its holes are. -/
theorem holeLevels_congr {d d' : Disk} {h : ℕ → ℕ} {X : Set ℕ} (hw : Wf N d h X) {ino : ℕ}
    (hino : ino < 64 * inodeBlocks d) (hkeep : ∀ b, inodeBlocks d < b → d' b = d b) (off : ℕ) :
    ∀ n p, p.length + n = h ino → holeLevels d' off n (node (slots d) (.inode ino) p) =
      holeLevels d off n (node (slots d) (.inode ino) p) := by
  intro n
  induction n with
  | zero =>
      intro p _
      unfold holeLevels
      rfl
  | succ n ih =>
      intro p hp
      by_cases h0 : node (slots d) (.inode ino) p = 0
      · rw [h0, holeLevels_zero, holeLevels_zero]
      · have hlt := hw.node_lt (position_inode hino (by omega)) h0
        have hstep : node (slots d) (.inode ino) (p ++ [refIndex off n]) =
            (d (node (slots d) (.inode ino) p)).word (refIndex off n) := by
          rw [node_concat, if_neg h0, slots_ref]
        rw [holeLevels_succ _ _ _ h0, holeLevels_succ _ _ _ h0, hkeep _ hlt.1, ← hstep]
        exact ih _ (by simp only [List.length_append, List.length_singleton]; omega)

/-- The disk `D`, with trees of the heights `h`, stores the files of `d`, and the inode `ino` has
room for the offset `off`.  Unless the tree has become higher, the free list and the holes are the
same. -/
structure Grown (N n : ℕ) (d : Disk) (ino off : ℕ) (D : Disk) (h : ℕ → ℕ) : Prop where
  wf : Wf N D h ∅
  blocks : inodeBlocks D = n
  size : ∀ ino', ino' < 64 * n →
    fileSize D ino' = if ino' = ino then max (fileSize d ino) (off + 1) else fileSize d ino'
  content : ∀ ino' off', ino' < 64 * n →
    contentAt D h ino' off' = contentAt d (heights d) ino' off'
  height : ∀ ino', ino' < 64 * n → h ino' = nlevels (fileSize D ino')
  holes : (SameFree D d ∧ holeLevels D off (h ino) (node (slots D) (.inode ino) []) =
      holeLevels d off (heights d ino) (node (slots d) (.inode ino) [])) ∨
    (heights d ino < levels off ∧ h ino = levels off ∧ node (slots D) (.inode ino) [] ≠ 0)

/-- What a new indirect block can hold that has been linked and not been written, if there are `j`
levels below the first hole and `m + 1` levels at and below the block. -/
def Stale (D : Disk) (j m : ℕ) (b : Block) : Prop := ∃ k, HandedOut D k b ∧ k + m + 1 = j

/-- **Where a write can stop**: before the inode is written, with some blocks taken from the free
list and not linked, or in the walk. -/
def WriteStops (A : ArrayStore below belowIno N Fails) (n : ℕ) (d : Disk) (ino off : ℕ) (e : String)
    (s : σ) : Prop :=
  (WriteFails Fails e ∧ fileSize d ino ≤ off ∧ ∃ V X, (Wf N V (heights d) X ∧
    SameData d (heights d) V (heights d)) ∧ A.HoldsOff ∅ V s) ∨
  ∃ D h, Grown N n d ino off D h ∧
    WalkStops A (Stale D (holeLevels D off (h ino) (node (slots D) (.inode ino) []))) h ino
      (digits 128 (h ino) off) D e s

theorem WriteStops.fails {n : ℕ} {d : Disk} {ino off : ℕ} {e : String} {s : σ}
    (h : WriteStops A n d ino off e s) : WriteFails Fails e := by
  rcases h with ⟨he, -⟩ | ⟨D, h, -, ⟨he, -⟩ | ⟨he, -⟩⟩
  · exact he
  · exact Or.inl he
  · exact Or.inr he

/-- The files after a write, from what the walk and the growth did. -/
theorem Represents.written {n : ℕ} {d D D' : Disk} {F : ℕ → SparseArray Block nullBlock}
    {h : ℕ → ℕ} {ino off : ℕ} {blk : Block} (hr : Represents N n d F)
    (hg : Grown N n d ino off D h) (hw : Wf N D' h ∅) (hwr : Written ino off blk D h D' h) :
    Represents N n D' (update F ino ((F ino).write off blk)) := by
  have hn : inodeBlocks D' = n := hwr.blocks.trans hg.blocks
  have hwsize := hwr.size
  have hwcont := hwr.content
  rw [hg.blocks] at hwsize hwcont
  have hheights : ∀ ino', ino' < 64 * n → heights D' ino' = h ino' := by
    intro ino' hino'
    rw [heights, hwsize ino' hino', hg.height ino' hino']
  refine ⟨hw.congr_heights (by rw [hn]; exact hheights), hn, ?_, ?_⟩
  · intro ino' hino'
    rw [hwsize ino' hino', hg.size ino' hino', update_apply]
    by_cases he : ino' = ino
    · subst he
      rw [if_pos rfl, if_pos rfl, SparseArray.size_write, hr.size _ hino']
    · rw [if_neg he, if_neg he, hr.size _ hino']
  · intro ino' off' hino'
    have hcongr : contentAt D' (heights D') ino' off' = contentAt D' h ino' off' := by
      rw [contentAt, contentAt, dataAt, dataAt, hheights ino' hino']
    rw [hcongr, hwcont ino' off' hino', hg.content ino' off' hino', update_apply]
    by_cases he : ino' = ino
    · subst he
      rw [if_pos rfl, SparseArray.get_write, hr.get _ _ hino']
      by_cases hoff : off' = off
      · rw [if_pos hoff, if_pos ⟨rfl, hoff⟩]
      · rw [if_neg hoff, if_neg fun hh => hoff hh.2]
    · rw [if_neg he, if_neg fun hh => he hh.1, hr.get _ _ hino']

theorem nblocks_snapshotOf (d : Disk) (ino : ℕ) : (snapshotOf d ino).nblocks = fileSize d ino := rfl

theorem snapshotOf_sizeDisk (d : Disk) (ino v : ℕ) :
    (snapshotOf d ino).setNblocks v = snapshotOf (sizeDisk d ino v) ino := by
  have hsup : sizeDisk d ino v 0 = d 0 := update_of_ne (by omega) _ _
  have hblk : sizeDisk d ino v (1 + ino / 64) =
      (d (1 + ino / 64)).setWord (Block.nblocksIdx (Fin.ofNat 64 ino)) v :=
    update_self _ _ _
  rw [snapshotOf, snapshotOf, hsup, hblk]
  rfl

/-- The new size is stored in the copy of the inode before anything is written. -/
theorem behind_sizeDisk {d : Disk} {h : ℕ → ℕ} (hw : Wf N d h ∅) (ino v : ℕ) :
    Behind N h ino d (sizeDisk d ino v) d ∅ := by
  refine ⟨?_, hw, SameData.refl d h⟩
  rw [sizeDisk, update_self]

/-- Storing a size does not touch the free list. -/
theorem Wf.size_sameFree {d : Disk} {h : ℕ → ℕ} {X : Set ℕ} (hw : Wf N d h X) {ino : ℕ}
    (hino : ino < 64 * inodeBlocks d) (v : ℕ) : SameFree (sizeDisk d ino v) d := by
  refine ⟨?_, fun p hp h0 => ?_⟩
  · rw [sizeDisk, update_of_ne (by omega)]
  · have hv : Position (inodeBlocks d) h .free p := hp
    have hnode := node_congr (Position (inodeBlocks d) h) (position_closed _ _)
      (fun s r p hv hloc => slots_sizeDisk v hw hino hv hloc) _ _ hv
    rw [hnode] at h0 ⊢
    have hlt := hw.node_lt hv h0
    have hne : node (slots d) .free p ≠ 1 + ino / 64 := by omega
    exact (update_of_ne hne _ _).symm

/-- The height of a tree is enough for the offsets of the file, and no more than that. -/
theorem heights_le_levels {d : Disk} {ino off : ℕ} (hoff : off < 2 ^ 32)
    (hg : fileSize d ino ≤ off) : heights d ino ≤ levels off := by
  rw [heights, nlevels]
  by_cases h0 : fileSize d ino > 0
  · rw [if_pos h0]
    exact levels_mono (by omega) hoff
  · rw [if_neg h0]
    exact Nat.zero_le _

/-- The disk on which the walk starts after the growth of the tree. -/
theorem Represents.grown {n : ℕ} {d D : Disk} {F : ℕ → SparseArray Block nullBlock}
    (hr : Represents N n d F) {ino off : ℕ} (hino : ino < 64 * n) (hoff : off < 2 ^ 32 - 1)
    (hg : fileSize d ino ≤ off)
    (hw : Wf N D (growHeight (heights d) ino (levels off - heights d ino)) ∅)
    (hsame : SameData (sizeDisk d ino (off + 1)) (heights d) D
      (growHeight (heights d) ino (levels off - heights d ino)))
    (hk : (levels off - heights d ino = 0 ∧ D = sizeDisk d ino (off + 1)) ∨
      (0 < levels off - heights d ino ∧ node (slots D) (.inode ino) [] ≠ 0)) :
    Grown N n d ino off D (growHeight (heights d) ino (levels off - heights d ino)) := by
  have hino' : ino < 64 * inodeBlocks d := by rw [hr.blocks]; exact hino
  have hle := heights_le_levels (by omega) hg
  have hn₀ := inodeBlocks_sizeDisk d ino (off + 1)
  have hn := hsame.blocks
  rw [hn₀] at hn
  have hheight : growHeight (heights d) ino (levels off - heights d ino) ino = levels off := by
    rw [growHeight, update_self]
    omega
  have hsize : ∀ ino', ino' < 64 * n →
      fileSize D ino' = if ino' = ino then max (fileSize d ino) (off + 1) else fileSize d ino' := by
    intro ino' hlt
    rw [hsame.size ino' (by rw [hn₀, hr.blocks]; exact hlt)]
    by_cases he : ino' = ino
    · rw [if_pos he, he, fileSize_sizeDisk_self d ino (by omega), Nat.max_eq_right (by omega)]
    · rw [if_neg he, fileSize_sizeDisk_of_ne d he]
  refine ⟨hw, hn.trans hr.blocks, hsize, ?_, ?_, ?_⟩
  · intro ino' off' hlt
    have hlt' : ino' < 64 * inodeBlocks d := by rw [hr.blocks]; exact hlt
    rw [hsame.content off' (by rw [hn₀]; exact hlt'), (hr.wf.size_content hino' _ hlt' off').2]
  · intro ino' hlt
    rw [hsize ino' hlt]
    by_cases he : ino' = ino
    · rw [if_pos he, he, hheight, Nat.max_eq_right (by omega), nlevels, if_pos (by omega)]
      rfl
    · rw [if_neg he, growHeight, update_of_ne he]
      rfl
  · rcases hk with ⟨hk, rfl⟩ | ⟨hk, hroot⟩
    · -- the tree is high enough, so nothing but the size has changed
      refine Or.inl ⟨hr.wf.size_sameFree hino' _, ?_⟩
      have hnode : node (slots (sizeDisk d ino (off + 1))) (.inode ino) [] =
          node (slots d) (.inode ino) [] :=
        slots_sizeDisk _ hr.wf hino' (position_inode hino' (Nat.zero_le _)) .root
      have hkeep : ∀ b, inodeBlocks d < b → sizeDisk d ino (off + 1) b = d b := by
        intro b hb
        rw [sizeDisk, update_of_ne (by omega)]
      rw [hnode, hheight, show levels off = heights d ino by omega]
      exact holeLevels_congr hr.wf hino' hkeep off _ [] (by simp)
    · exact Or.inr ⟨by omega, hheight, hroot⟩

/-- What `treedisk_write` does after it has read the snapshot. -/
theorem treediskWrite_apply {d : Disk} {h : ℕ → ℕ} {X : Set ℕ} {s : σ} (hw : Wf N d h X)
    (hs : A.HoldsOff ∅ d s) {ino : ℕ} (hino : ino < 64 * inodeBlocks d) (off : ℕ) (blk : Block) :
    treediskWrite ⟨below, belowIno⟩ ino off blk s = (
      let snapshot := if decide (off ≥ fileSize d ino) then
        (snapshotOf d ino).setNblocks ((off + 1) % 2 ^ 32) else snapshotOf d ino
      let after := if decide (off ≥ fileSize d ino) then levels off else heights d ino
      let k := if snapshot.nblocks = 0 then 0 else after - heights d ino
      growLoop ⟨below, belowIno⟩ k snapshot >>= fun snapshot' =>
        writeInode ⟨below, belowIno⟩ (decide (off ≥ fileSize d ino) || decide (0 < k)) snapshot' >>=
          fun _ => writeData ⟨below, belowIno⟩ off blk
            (if snapshot.nblocks = 0 then after else heights d ino + k) snapshot') s := by
  rw [treediskWrite, get_bind_apply, treediskGetSnapshot_eq hw hs, if_pos hino]
  rfl

/-- A write past the end of the file, from the growth of the tree on. -/
def writeGrow (ts : Treedisk σ) (d : Disk) (ino off : ℕ) (blk : Block) : EStateM String σ ℤ :=
  growLoop ts (levels off - heights d ino) (snapshotOf (sizeDisk d ino (off + 1)) ino) >>=
    fun snapshot => writeInode ts true snapshot >>= fun _ =>
      writeData ts off blk (heights d ino + (levels off - heights d ino)) snapshot

/-- **The two ways of `treedisk_write`**: a write past the end of the file makes the tree grow, and
one below it does not. -/
theorem treediskWrite_cases {d : Disk} {X : Set ℕ} (hw : Wf N d (heights d) X) {ino off : ℕ}
    (hino : ino < 64 * inodeBlocks d) (hoff : off < 2 ^ 32 - 1) (blk : Block)
    {Q : ℤ → σ → Prop} {E : String → σ → Prop}
    (hgrow : fileSize d ino ≤ off →
      Triple (A.HoldsOff ∅ d) (writeGrow ⟨below, belowIno⟩ d ino off blk) Q E)
    (hdata : off < fileSize d ino → Triple (A.HoldsOff ∅ d)
      (writeData ⟨below, belowIno⟩ off blk (heights d ino) (snapshotOf d ino)) Q E) :
    Triple (A.HoldsOff ∅ d) (treediskWrite ⟨below, belowIno⟩ ino off blk) Q E := by
  by_cases hg : off ≥ fileSize d ino
  · refine (hgrow hg).congr fun s hs => ?_
    have hmod : (off + 1) % 2 ^ 32 = off + 1 := Nat.mod_eq_of_lt (by omega)
    have hnb : ((snapshotOf d ino).setNblocks (off + 1)).nblocks ≠ 0 := by
      rw [snapshotOf_sizeDisk, nblocks_snapshotOf, fileSize_sizeDisk_self d ino (by omega)]
      omega
    rw [treediskWrite_apply hw hs hino]
    simp only [decide_eq_true hg, if_true, Bool.true_or, hmod, if_neg hnb]
    rw [snapshotOf_sizeDisk]
    rfl
  · refine (hdata (by omega)).congr fun s hs => ?_
    have hnb : (snapshotOf d ino).nblocks ≠ 0 := by
      rw [nblocks_snapshotOf]
      omega
    rw [treediskWrite_apply hw hs hino]
    simp only [decide_eq_false hg, Bool.false_eq_true, if_false, if_neg hnb, Nat.sub_self,
      Bool.false_or, Nat.lt_irrefl, decide_false, Nat.add_zero]
    rfl

/-- A write past the end of the file, from the growth of the tree on. -/
theorem writeGrow_spec {d : Disk} {n : ℕ} {F : ℕ → SparseArray Block nullBlock}
    (hr : Represents N n d F) {ino off : ℕ} (hino : ino < 64 * n) (hoff : off < 2 ^ 32 - 1)
    (hg : fileSize d ino ≤ off) (blk : Block) :
    Triple (A.HoldsOff ∅ d) (writeGrow ⟨below, belowIno⟩ d ino off blk)
      (fun r s => ∃ d', (r = 0 ∧
        Represents N n d' (update F ino ((F ino).write off blk))) ∧ A.HoldsOff ∅ d' s)
      (fun e s => WriteStops A n d ino off e s) := by
  have hino' : ino < 64 * inodeBlocks d := by rw [hr.blocks]; exact hino
  have hle := heights_le_levels (by omega) hg
  have hw₀ := hr.wf.size hino' (off + 1)
  have hn₀ := inodeBlocks_sizeDisk d ino (off + 1)
  refine Triple.bind ((growLoop_spec (A := A) ino _ _ _ _ _ hw₀ (by rw [hn₀]; exact hino')
    (behind_sizeDisk hr.wf ino (off + 1))).conseq (fun _ hs => hs) (fun _ _ hq => hq) ?_)
    fun snap => Triple.of_exists fun D => Triple.of_exists fun V => Triple.of_exists fun X =>
    Triple.of_pre ?_
  · rintro e s ⟨he, hstop⟩
    exact Or.inl ⟨he, hg, hstop⟩
  rintro ⟨rfl, hw, hsame, hb, hk⟩
  have hgrown := hr.grown hino hoff hg hw hsame hk
  have hheight : growHeight (heights d) ino (levels off - heights d ino) ino = levels off := by
    rw [growHeight, update_self]
    omega
  have hn : ino < 64 * inodeBlocks D := by rw [hgrown.blocks]; exact hino
  -- the inode block of the copy is the one of the disk `D`
  refine Triple.bind ((writeOrPanic_update (A := A) V (1 + ino / 64) (D (1 + ino / 64)) _
    (hw.inode_lt hn)).conseq (fun _ hs => hs) ?_ ?_) (Q := fun _ s => A.HoldsOff ∅ D s) fun _ => ?_
  · intro _ s hs
    rw [← hb.disk] at hs
    exact hs
  · rintro e s ⟨he, hs⟩
    exact Or.inl ⟨Or.inr he, hg, V, X, ⟨hb.wf, hb.same⟩, hs⟩
  rw [show heights d ino + (levels off - heights d ino) = levels off by omega, ← hheight]
  refine (writeData_spec hw hn (by omega) (by rw [hheight]; exact lt_pow_levels (by omega))
    (fun k m b hout hkm => ⟨k, hout, hkm⟩) blk).conseq (fun _ hs => hs) ?_
    fun e s he => Or.inr ⟨D, _, hgrown, he⟩
  rintro r s ⟨D', ⟨hr0, hw', hwr⟩, hs⟩
  exact ⟨D', ⟨hr0, hr.written hgrown hw' hwr⟩, hs⟩

/-- A write below the end of the file does not change the tree before the walk. -/
theorem Represents.grown_self {n : ℕ} {d : Disk} {F : ℕ → SparseArray Block nullBlock}
    (hr : Represents N n d F) {ino off : ℕ} (hlt : off < fileSize d ino) :
    Grown N n d ino off d (heights d) := by
  refine ⟨hr.wf, hr.blocks, ?_, fun _ _ _ => rfl, fun _ _ => rfl, Or.inl ⟨SameFree.refl d, rfl⟩⟩
  intro ino' _
  by_cases he : ino' = ino
  · rw [if_pos he, he, Nat.max_eq_left (by omega)]
  · rw [if_neg he]

/-- **`treedisk_write`** writes the sparse array of the inode, unless the store is full or a write
of the layer below fails. -/
theorem treediskWrite_spec {d : Disk} {n : ℕ} {F : ℕ → SparseArray Block nullBlock}
    (hr : Represents N n d F) {ino off : ℕ} (hino : ino < 64 * n) (hoff : off < 2 ^ 32 - 1)
    (blk : Block) :
    Triple (A.HoldsOff ∅ d) (treediskWrite ⟨below, belowIno⟩ ino off blk)
      (fun r s => ∃ d', (r = 0 ∧
        Represents N n d' (update F ino ((F ino).write off blk))) ∧ A.HoldsOff ∅ d' s)
      (fun e s => WriteStops A n d ino off e s) := by
  have hino' : ino < 64 * inodeBlocks d := by rw [hr.blocks]; exact hino
  refine treediskWrite_cases hr.wf hino' hoff blk (fun hg => writeGrow_spec hr hino hoff hg blk)
    fun hlt => ?_
  have hgrown : Grown N n d ino off d (heights d) := hr.grown_self hlt
  refine (writeData_spec hr.wf hino' (by omega) (lt_pow_nlevels (fileSize_lt d ino) hlt)
    (fun k m b hout hkm => ⟨k, hout, hkm⟩) blk).conseq (fun _ hs => hs) ?_
    fun e s he => Or.inr ⟨d, _, hgrown, he⟩
  rintro r s ⟨D', ⟨hr0, hw', hwr⟩, hs⟩
  exact ⟨D', ⟨hr0, hr.written hgrown hw' hwr⟩, hs⟩

/-! ### The greatest offset -/

/-- **An empty file is a tree of any height**: its root is null, or a block filled with null bytes.
-/
theorem Represents.wf_raise {n : ℕ} {d : Disk} {F : ℕ → SparseArray Block nullBlock}
    (hr : Represents N n d F) {ino : ℕ} (hino : ino < 64 * n) (hempty : fileSize d ino = 0)
    (k : ℕ) : Wf N d (update (heights d) ino k) ∅ := by
  have hheight : heights d ino = 0 := by rw [heights, hempty]; rfl
  have hnull : contentAt d (heights d) ino 0 = nullBlock := by
    rw [← hr.get ino 0 hino]
    exact (F ino).beyond 0 (by rw [hr.size ino hino, hempty])
  rw [contentAt, dataAt, hheight, if_pos (show 0 < 128 ^ 0 by decide), digits_zero] at hnull
  -- there is nothing below the root
  have hbelow : ∀ i p, node (slots d) (.inode ino) (i :: p) = 0 := by
    intro i p
    have hone : node (slots d) (.inode ino) ([] ++ [i]) = 0 := by
      rw [node_concat]
      by_cases h0 : node (slots d) (.inode ino) [] = 0
      · rw [if_pos h0]
      · rw [if_neg h0] at hnull ⊢
        rw [slots_ref, hnull, Block.word_nullBlock]
    exact node_append_of_zero hone p
  refine ⟨hr.wf.room, hr.wf.bound, hr.wf.inodes, hr.wf.part.extend ?_ ?_⟩
  · intro r p hv
    cases r with
    | free => exact hv
    | inode ino' =>
        refine position_inode hv.1 ?_
        by_cases he : ino' = ino
        · subst he
          exact le_trans hv.2 (by rw [hheight]; exact Nat.zero_le _)
        · rw [update_of_ne he]
          exact hv.2
  · intro r p hv h0
    cases r with
    | free => exact hv
    | inode ino' =>
        refine position_inode hv.1 ?_
        by_cases he : ino' = ino
        · subst he
          cases p with
          | nil => exact Nat.zero_le _
          | cons i p => exact absurd (hbelow i p) h0
        · have hle := hv.2
          rw [update_of_ne he] at hle
          exact hle

/-- **A write of `treedisk_write` at the greatest offset, to an empty file.**  The new size wraps
around to 0, so the inode does not change, and the walk starts at the root with five levels. -/
theorem treediskWrite_wrap {d : Disk} {n : ℕ} {F : ℕ → SparseArray Block nullBlock}
    (hr : Represents N n d F) {ino : ℕ} (hino : ino < 64 * n) (hempty : fileSize d ino = 0)
    (blk : Block) :
    Triple (A.HoldsOff ∅ d) (treediskWrite ⟨below, belowIno⟩ ino (2 ^ 32 - 1) blk)
      (fun _ _ => True)
      (fun e s => (Fails e ∧ A.HoldsOff ∅ d s) ∨
        WalkStops A (fun _ _ => True) (update (heights d) ino 5) ino
          (digits 128 5 (2 ^ 32 - 1)) d e s) := by
  have hino' : ino < 64 * inodeBlocks d := by rw [hr.blocks]; exact hino
  have hself : (snapshotOf d ino).setNblocks 0 = snapshotOf d ino := by
    rw [snapshotOf_sizeDisk, ← hempty, sizeDisk_fileSize]
  have hnb : (snapshotOf d ino).nblocks = 0 := by rw [nblocks_snapshotOf, hempty]
  have hge : 2 ^ 32 - 1 ≥ fileSize d ino := by rw [hempty]; exact Nat.zero_le _
  have hlevels : levels (2 ^ 32 - 1) = 5 := by decide
  have hmod : (2 ^ 32 - 1 + 1) % 2 ^ 32 = 0 := by decide
  have hrun : ∀ s, A.HoldsOff ∅ d s → treediskWrite ⟨below, belowIno⟩ ino (2 ^ 32 - 1) blk s =
      (writeInode ⟨below, belowIno⟩ true (snapshotOf d ino) >>= fun _ =>
        writeData ⟨below, belowIno⟩ (2 ^ 32 - 1) blk 5 (snapshotOf d ino)) s := by
    intro s hs
    rw [treediskWrite_apply hr.wf hs hino']
    simp only [decide_eq_true hge, if_true, Bool.true_or, hmod, hself, hnb, hlevels]
    rfl
  refine Triple.congr ?_ hrun
  have hblk : update d (1 + ino / 64) (snapshotOf d ino).inodeblock = d :=
    update_eq_self _ _
  refine Triple.bind ((writeOrPanic_update (A := A) d (1 + ino / 64) (snapshotOf d ino).inodeblock _
    (hr.wf.inode_lt hino')).conseq (fun _ hs => hs) (fun _ _ hs => hblk ▸ hs)
    fun e s he => Or.inl he) fun _ => ?_
  have hheight : update (heights d) ino 5 ino = 5 := update_self _ _ _
  have hdata := writeData_spec (A := A) (P := fun _ _ => True)
    (hr.wf_raise hino hempty 5) hino' (show 2 ^ 32 - 1 < 2 ^ 32 by decide)
    (by rw [hheight]; decide) (fun _ _ _ _ _ => trivial) blk
  rw [hheight] at hdata
  exact hdata.conseq (fun _ hs => hs) (fun _ _ _ => trivial) fun e s he => Or.inr he

end Code

end Egos
