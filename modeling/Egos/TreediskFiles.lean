/-
**A treedisk is a sparse array of blocks for each inode.**

The specifications of the single calls are put together to runs: a file system is created on a store
that behaves as an array of blocks, and then written to any number of times.  What can be read is
determined by the list of the writes alone, and the blocks of the store are shared out among the
free list and the trees of the inodes at every moment between two calls.

Main definitions:

* `Egos.treediskWrites` — a sequence of calls of `treedisk_write`;
* `Egos.TreediskReachable` — the states of the store below that calls of `treedisk_create` and
  `treedisk_write` lead to;
* `Egos.Place` — the places at which a block number can stand;
* `Egos.ramdisk` — the store on which `mkfs` creates the file system.

Main results:

* `Egos.treedisk_refines_sparseArray` — **the calls refine the operations of sparse arrays**;
* `Egos.getsize_iff_offsets`, `Egos.write_shortens` — for which offsets the size of a file is right;
* `Egos.treedisk_block_partition` — **every block stands at exactly one place**.
-/

import Egos.TreediskCreate

set_option autoImplicit false

namespace Egos

open Function (update update_of_ne update_self)
open PointerForest Hoare

/-! ### A store -/

/-- The RAM disk of `mkfs.c`, with `nblocks` blocks.  Accesses past the end of the array, which are
undefined in the source, fail. -/
def ramdisk (nblocks : ℕ) : InodeStore Disk where
  getsize _ _ := nblocks
  setsize _ _ := throw "setsize: assertion failed"
  read _ offset fs := if offset < nblocks then some (fs offset) else none
  write _ offset block := do
    if offset < nblocks then
      modify fun fs => update fs offset block
      return 0
    else throw "ramwrite: out of bounds"

theorem ramdisk_write {nblocks off : ℕ} (hoff : off < nblocks) (ino : ℕ) (b : Block) (fs : Disk) :
    (ramdisk nblocks).write ino off b fs = .ok 0 (update fs off b) := by
  simp only [ramdisk, if_pos hoff]
  rfl

/-- The RAM disk is an array of blocks. -/
def ramdiskArray {nblocks : ℕ} (h : nblocks < 2 ^ 32) (ino : ℕ) :
    ArrayStore (ramdisk nblocks) ino nblocks fun _ => False where
  Inv _ := True
  view fs := fs
  getsize_eq _ _ := by
    change (nblocks : ℤ) % 2 ^ 32 = nblocks
    omega
  read_eq fs off _ hoff := if_pos hoff
  write_spec d off b hoff := by
    rintro fs ⟨-, rfl⟩
    rw [ramdisk_write hoff]
    exact ⟨rfl, trivial, rfl⟩

/-! ### Runs of writes -/

/-- The arguments of a call of `treedisk_write`. -/
structure WriteOp where
  ino : ℕ
  offset : ℕ
  block : Block

/-- Call `treedisk_write` for each element of a list, and collect the return values. -/
def treediskWrites {σ : Type} (ts : Treedisk σ) : List WriteOp → EStateM String σ (List ℤ)
  | [] => return []
  | op :: ops => do
      let r ← treediskWrite ts op.ino op.offset op.block
      let rs ← treediskWrites ts ops
      return r :: rs

/-- The offsets and blocks written to an inode. -/
def writesTo (ino : ℕ) (ops : List WriteOp) : List (ℕ × Block) :=
  (ops.filter fun op => op.ino == ino).map fun op => (op.offset, op.block)

section Runs

variable {σ : Type} {below : InodeStore σ} {belowIno N : ℕ} {Fails : String → Prop}
  {A : ArrayStore below belowIno N Fails}

/-- Only the inodes in range matter. -/
theorem Represents.congr {n : ℕ} {d : Disk} {F F' : ℕ → SparseArray Block nullBlock}
    (hr : Represents N n d F) (h : ∀ ino, ino < 64 * n → F' ino = F ino) : Represents N n d F' := by
  refine ⟨hr.wf, hr.blocks, fun ino hino => ?_, fun ino off hino => ?_⟩
  · rw [h ino hino]
    exact hr.size ino hino
  · rw [h ino hino]
    exact hr.get ino off hino

/-- A write to an inode out of range is refused. -/
theorem treediskWrite_out {d : Disk} {n : ℕ} {F : ℕ → SparseArray Block nullBlock} {s : σ}
    (hr : Represents N n d F) (hs : A.HoldsOff ∅ d s) {ino : ℕ} (hino : 64 * n ≤ ino) (off : ℕ)
    (blk : Block) : treediskWrite ⟨below, belowIno⟩ ino off blk s = .ok (-1) s := by
  have hsnap := treediskGetSnapshot_eq hr.wf hs ino
  rw [hr.blocks, if_neg (by omega)] at hsnap
  rw [treediskWrite, Hoare.get_bind_apply, hsnap]
  rfl

/-- A write, in range or not, is a write of the sparse arrays in range. -/
theorem treediskWrite_op {d : Disk} {n : ℕ} {F : ℕ → SparseArray Block nullBlock}
    (hr : Represents N n d F) (op : WriteOp) (hoff : op.offset < 2 ^ 32 - 1) :
    Triple (A.HoldsOff ∅ d) (treediskWrite ⟨below, belowIno⟩ op.ino op.offset op.block)
      (fun r s => ∃ d', (r = (if op.ino < 64 * n then 0 else -1) ∧
        Represents N n d' fun ino => (F ino).writes (writesTo ino [op])) ∧ A.HoldsOff ∅ d' s)
      (fun e _ => WriteFails Fails e) := by
  by_cases hino : op.ino < 64 * n
  · refine (treediskWrite_spec hr hino hoff op.block).conseq (fun _ hs => hs) ?_
      fun _ _ he => he.fails
    rintro r s ⟨d', ⟨rfl, hr'⟩, hs⟩
    refine ⟨d', ⟨(if_pos hino).symm, hr'.congr fun ino _ => ?_⟩, hs⟩
    by_cases he : ino = op.ino
    · subst he
      simp [writesTo, SparseArray.writes]
    · rw [update_of_ne he]
      simp [writesTo, SparseArray.writes, beq_false_of_ne (Ne.symm he)]
  · intro s hs
    rw [treediskWrite_out hr hs (by omega)]
    refine ⟨d, ⟨(if_neg hino).symm, hr.congr fun ino hlt => ?_⟩, hs⟩
    have he : op.ino ≠ ino := by omega
    simp [writesTo, SparseArray.writes, beq_false_of_ne he]

/-- The first write of a run, and then the others. -/
theorem writes_writesTo_cons (a : SparseArray Block nullBlock) (ino : ℕ) (op : WriteOp)
    (ops : List WriteOp) :
    (a.writes (writesTo ino [op])).writes (writesTo ino ops) =
      a.writes (writesTo ino (op :: ops)) := by
  rw [SparseArray.writes, SparseArray.writes, SparseArray.writes, ← List.foldl_append, writesTo,
    writesTo, writesTo, ← List.map_append, ← List.filter_append, List.singleton_append]

/-- **A run of writes** is a run of writes of the sparse arrays. -/
theorem treediskWrites_spec {n : ℕ} :
    ∀ ops d F, Represents N n d F → (∀ op ∈ ops, op.offset < 2 ^ 32 - 1) →
      Triple (A.HoldsOff ∅ d) (treediskWrites ⟨below, belowIno⟩ ops)
        (fun rs s => ∃ d', (rs = (ops.map fun op => if op.ino < 64 * n then 0 else -1) ∧
          Represents N n d' fun ino => (F ino).writes (writesTo ino ops)) ∧ A.HoldsOff ∅ d' s)
        (fun e _ => WriteFails Fails e) := by
  intro ops
  induction ops with
  | nil =>
      intro d F hr _
      rw [treediskWrites]
      exact Triple.pure fun s hs => ⟨d, ⟨rfl, hr⟩, hs⟩
  | cons op ops ih =>
      intro d F hr hops
      have hoff := hops op (List.mem_cons_self)
      have hops' : ∀ op' ∈ ops, op'.offset < 2 ^ 32 - 1 := fun op' h =>
        hops op' (List.mem_cons_of_mem _ h)
      rw [treediskWrites]
      refine Triple.bind (treediskWrite_op hr op hoff) fun r => Triple.of_exists fun d₁ =>
        Triple.of_pre ?_
      rintro ⟨rfl, hr₁⟩
      refine Triple.bind (ih d₁ _ hr₁ hops') fun rs => Triple.of_exists fun d₂ => Triple.of_pre ?_
      rintro ⟨rfl, hr₂⟩
      refine Triple.pure fun s hs => ⟨d₂, ⟨rfl, hr₂.congr fun ino _ => ?_⟩, hs⟩
      exact (writes_writesTo_cons (F ino) ino op ops).symm

/-- A write that returns leaves the other inodes alone, and the blocks at the other offsets. -/
theorem treediskWrite_keeps {d : Disk} {n : ℕ} {F : ℕ → SparseArray Block nullBlock} {s s' : σ}
    (hr : Represents N n d F) (hs : A.HoldsOff ∅ d s) {ino off : ℕ} (hoff : off < 2 ^ 32 - 1)
    {blk : Block} {r : ℤ} (hw : treediskWrite ⟨below, belowIno⟩ ino off blk s = .ok r s')
    {ino' off' : ℕ} (hoff' : off' < 2 ^ 32) (hne : ¬ (ino' = ino ∧ off' = off)) :
    (ino' ≠ ino → treediskRead ⟨below, belowIno⟩ ino' off' s' =
        treediskRead ⟨below, belowIno⟩ ino' off' s) ∧
      ∀ b, treediskRead ⟨below, belowIno⟩ ino' off' s = some b →
        treediskRead ⟨below, belowIno⟩ ino' off' s' = some b := by
  by_cases hino : ino < 64 * n
  · have h := treediskWrite_spec (A := A) hr hino hoff blk s hs
    rw [hw] at h
    obtain ⟨d', ⟨-, hr'⟩, hs'⟩ := h
    rw [treediskRead_spec hr hs ino' off' hoff', treediskRead_spec hr' hs' ino' off' hoff']
    refine ⟨fun hi => by rw [update_of_ne hi], fun b hb => ?_⟩
    by_cases hi : ino' = ino
    · subst hi
      have hoo : off' ≠ off := fun h => hne ⟨rfl, h⟩
      rw [if_pos hino] at hb ⊢
      rw [update_self]
      rw [SparseArray.read] at hb ⊢
      rw [SparseArray.size_write, SparseArray.get_write, if_neg hoo]
      by_cases hlt : off' < (F ino').size
      · rw [if_pos hlt] at hb
        rw [if_pos (lt_max_of_lt_left hlt), hb]
      · rw [if_neg hlt] at hb
        exact absurd hb (by simp)
    · rw [update_of_ne hi]
      exact hb
  · rw [treediskWrite_out hr hs (by omega)] at hw
    obtain ⟨-, rfl⟩ := EStateM.Result.ok.inj hw
    exact ⟨fun _ => rfl, fun _ hb => hb⟩

/-- **Treedisk refines sparse arrays.**  After the creation of a file system with `n` inode blocks
and any writes that do not exhaust the free list, an inode in range reads as the sparse array it was
written to; calls for the other inodes are refused and change nothing.  In particular one more write
changes neither what can be read from the other inodes, nor the blocks at the other offsets. -/
theorem treedisk_refines_sparseArray (A : ArrayStore below belowIno N fun _ => False) {s₀ s₁ : σ}
    (hinv : A.Inv s₀) (hfresh : (A.view s₀ 0).nInodeblocks = 0) {ninodes : ℕ}
    (hcreate : treediskCreate below belowIno ninodes s₀ = .ok 0 s₁) (ops : List WriteOp)
    (hops : ∀ op ∈ ops, op.offset < 2 ^ 32 - 1)
    (hfull : ∀ s, treediskWrites ⟨below, belowIno⟩ ops s₁ ≠ .error storeFull s) :
    ∃ n s₂, n = (A.view s₁ 0).nInodeblocks ∧ n = inodeBlocksFor ninodes ∧
      treediskWrites ⟨below, belowIno⟩ ops s₁ =
        .ok (ops.map fun op => if op.ino < 64 * n then 0 else -1) s₂ ∧
      (∀ ino off, ino < 64 * n → off < 2 ^ 32 →
        treediskRead ⟨below, belowIno⟩ ino off s₂ =
          if ∃ w ∈ writesTo ino ops, off ≤ w.1 then
            some ((SparseArray.lastWritten off (writesTo ino ops)).getD nullBlock)
          else none) ∧
      (∀ ino off, 64 * n ≤ ino → treediskRead ⟨below, belowIno⟩ ino off s₂ = none ∧
        ∀ blk, treediskWrite ⟨below, belowIno⟩ ino off blk s₂ = .ok (-1) s₂) ∧
      ∀ ino off blk r s₃, off < 2 ^ 32 - 1 →
        treediskWrite ⟨below, belowIno⟩ ino off blk s₂ = .ok r s₃ →
        ∀ ino' off', off' < 2 ^ 32 → ¬ (ino' = ino ∧ off' = off) →
          (ino' ≠ ino → treediskRead ⟨below, belowIno⟩ ino' off' s₃ =
            treediskRead ⟨below, belowIno⟩ ino' off' s₂) ∧
          ∀ b, treediskRead ⟨below, belowIno⟩ ino' off' s₂ = some b →
            treediskRead ⟨below, belowIno⟩ ino' off' s₃ = some b := by
  have hc := treediskCreate_spec hfresh ninodes s₀ (A.holdsOff_view hinv)
  rw [hcreate] at hc
  rcases hc with ⟨hne, -⟩ | ⟨d₁, ⟨-, hr₁⟩, hs₁⟩
  · exact absurd hne (by decide)
  have hw := treediskWrites_spec ops d₁ _ hr₁ hops s₁ hs₁
  cases hrun : treediskWrites ⟨below, belowIno⟩ ops s₁ with
  | error e s =>
      -- an ideal disk does not fail, so the free list is exhausted
      rw [hrun] at hw
      rcases hw with rfl | hf
      · exact absurd hrun (hfull s)
      · exact hf.elim
  | ok rs s₂ =>
      rw [hrun] at hw
      obtain ⟨d₂, ⟨rfl, hr₂⟩, hs₂⟩ := hw
      have hn : inodeBlocksFor ninodes = (A.view s₁ 0).nInodeblocks := by
        rw [hs₁.view_eq]
        exact hr₁.blocks.symm
      refine ⟨inodeBlocksFor ninodes, s₂, hn, rfl, rfl, ?_, ?_, ?_⟩
      · intro ino off hino hoff
        rw [treediskRead_spec hr₂ hs₂ ino off hoff, if_pos hino, SparseArray.read_writes_empty]
      · intro ino off hino
        refine ⟨?_, fun blk => treediskWrite_out hr₂ hs₂ hino off blk⟩
        rw [treediskRead, treediskGetSnapshot_eq hr₂.wf hs₂, hr₂.blocks, if_neg (by omega)]
      · intro ino off blk r s₃ hoff hone ino' off' hoff' hne
        exact treediskWrite_keeps hr₂ hs₂ hoff hone hoff' hne

/-- A call returns `0`, in a state with a property. -/
def returnsZero {σ : Type} (r : EStateM.Result String σ ℤ) (p : σ → Bool) : Bool :=
  match r with
  | .ok v s => v == 0 && p s
  | .error _ _ => false

theorem of_returnsZero {σ : Type} {r : EStateM.Result String σ ℤ} {p : σ → Bool}
    (h : returnsZero r p = true) : ∃ s, r = .ok 0 s ∧ p s = true := by
  cases r with
  | ok v s =>
      rw [returnsZero, Bool.and_eq_true, beq_iff_eq] at h
      exact ⟨s, by rw [h.1], h.2⟩
  | error e s => exact absurd h (by simp [returnsZero])

/-- A run on a RAM disk of five blocks: a file system with one inode block is created, and the
second block of the first inode is written. -/
theorem ramdisk_run : ∃ s₁ s₂, treediskCreate (ramdisk 5) 0 1 (fun _ => nullBlock) = .ok 0 s₁ ∧
    treediskWrite ⟨ramdisk 5, 0⟩ 0 1 (fun _ => 7) s₁ = .ok 0 s₂ := by
  have hrun : returnsZero (treediskCreate (ramdisk 5) 0 1 fun _ => nullBlock) (fun s₁ =>
      returnsZero (treediskWrite ⟨ramdisk 5, 0⟩ 0 1 (fun _ => 7) s₁) fun _ => true) = true := by
    decide +kernel
  obtain ⟨s₁, hc, hrun⟩ := of_returnsZero hrun
  obtain ⟨s₂, hw, -⟩ := of_returnsZero hrun
  exact ⟨s₁, s₂, hc, hw⟩

/-- On a RAM disk of five blocks there is room for a file of two blocks: one is written, the other
is a hole. -/
theorem treedisk_refines_sparseArray_ramdisk :
    ∃ s₁ s₂, treediskCreate (ramdisk 5) 0 1 (fun _ => nullBlock) = .ok 0 s₁ ∧
      treediskWrites ⟨ramdisk 5, 0⟩ [⟨0, 1, fun _ => 7⟩] s₁ = .ok [0] s₂ ∧
      treediskRead ⟨ramdisk 5, 0⟩ 0 0 s₂ = some nullBlock ∧
      treediskRead ⟨ramdisk 5, 0⟩ 0 1 s₂ = some (fun _ => 7) ∧
      treediskRead ⟨ramdisk 5, 0⟩ 0 2 s₂ = none := by
  obtain ⟨s₁, s, hc, hw⟩ := ramdisk_run
  have hrun : treediskWrites ⟨ramdisk 5, 0⟩ [⟨0, 1, fun _ => 7⟩] s₁ = .ok [0] s := by
    simp only [treediskWrites, bind, EStateM.bind, hw]
    rfl
  obtain ⟨n, s₂, -, rfl, hw, hread, -⟩ := treedisk_refines_sparseArray
    (ramdiskArray (by decide) 0) trivial rfl hc [⟨0, 1, fun _ => 7⟩] (by simp)
    (fun s' h => by rw [hrun] at h; exact absurd h (by simp))
  refine ⟨s₁, s₂, hc, hw, ?_, ?_, ?_⟩
  · rw [hread 0 0 (by decide) (by decide)]
    rfl
  · rw [hread 0 1 (by decide) (by decide)]
    rfl
  · rw [hread 0 2 (by decide) (by decide)]
    rfl

/-! ### The size of a file -/

/-- The size is returned through a signed `int`. -/
theorem treediskGetsize_lt (ts : Treedisk σ) (ino : ℕ) (s : σ) :
    treediskGetsize ts ino s < 2 ^ 31 := by
  rw [treediskGetsize]
  cases treediskGetSnapshot ts ino s with
  | none => decide
  | some snapshot =>
      have hlt : snapshot.nblocks < 2 ^ 32 := Block.word_lt _ _
      simp only
      split <;> omega

/-- **When `treedisk_getsize` returns the size of a file.**  After the creation of a file system and
writes at any 32-bit offsets that all return `0`, it returns for each file one more than the largest
offset written, if and only if all the offsets have been below `2 ^ 31 - 1`. -/
theorem getsize_iff_offsets (A : ArrayStore below belowIno N Fails) {s₀ s₁ s₂ : σ}
    (hinv : A.Inv s₀) (hfresh : (A.view s₀ 0).nInodeblocks = 0) {ninodes : ℕ}
    (hcreate : treediskCreate below belowIno ninodes s₀ = .ok 0 s₁) (ops : List WriteOp)
    {rs : List ℤ}
    (hrun : treediskWrites ⟨below, belowIno⟩ ops s₁ = .ok rs s₂) (hrs : ∀ r ∈ rs, r = 0) :
    (∀ ino, ino < 64 * inodeBlocksFor ninodes ∨ ino ∈ ops.map WriteOp.ino →
        treediskGetsize ⟨below, belowIno⟩ ino s₂ = SparseArray.extent (writesTo ino ops)) ↔
      ∀ op ∈ ops, op.offset < 2 ^ 31 - 1 := by
  constructor
  · intro hsize op hmem
    have hwritten : (op.offset, op.block) ∈ writesTo op.ino ops :=
      List.mem_map.2 ⟨op, List.mem_filter.2 ⟨hmem, beq_self_eq_true _⟩, rfl⟩
    have hext := (SparseArray.lt_extent op.offset _).2 ⟨_, hwritten, le_rfl⟩
    have hlt := treediskGetsize_lt ⟨below, belowIno⟩ op.ino s₂
    rw [hsize op.ino (Or.inr (List.mem_map_of_mem hmem))] at hlt
    omega
  · intro hsmall
    have hc := treediskCreate_spec hfresh ninodes s₀ (A.holdsOff_view hinv)
    rw [hcreate] at hc
    rcases hc with ⟨hne, -⟩ | ⟨d₁, ⟨-, hr₁⟩, hs₁⟩
    · exact absurd hne (by decide)
    have hw := treediskWrites_spec ops d₁ _ hr₁
      (fun op h => lt_trans (hsmall op h) (by decide)) s₁ hs₁
    rw [hrun] at hw
    obtain ⟨d₂, ⟨rfl, hr₂⟩, hs₂⟩ := hw
    intro ino hino
    -- a write that returns 0 is to an inode in range
    have hlt : ino < 64 * inodeBlocksFor ninodes := by
      rcases hino with hlt | hmem
      · exact hlt
      · obtain ⟨op, hop, rfl⟩ := List.mem_map.1 hmem
        by_contra hge
        have hr := hrs _ (List.mem_map_of_mem hop)
        rw [if_neg hge] at hr
        exact absurd hr (by decide)
    have hext : SparseArray.extent (writesTo ino ops) < 2 ^ 31 := by
      by_contra hge
      obtain ⟨w, hmem, hle⟩ := (SparseArray.lt_extent (2 ^ 31 - 1) (writesTo ino ops)).1 (by omega)
      obtain ⟨op, hop, rfl⟩ := List.mem_map.1 hmem
      have := hsmall op (List.mem_filter.1 hop).1
      omega
    rw [treediskGetsize_wf hr₂.wf hs₂, hr₂.blocks, if_pos hlt, ← hr₂.size ino hlt,
      SparseArray.size_writes_empty, if_pos hext]

/-- After a write of the second block of a file on a RAM disk, its size is 2. -/
theorem getsize_iff_offsets_ramdisk :
    ∃ s₁ s₂, treediskCreate (ramdisk 5) 0 1 (fun _ => nullBlock) = .ok 0 s₁ ∧
      treediskWrites ⟨ramdisk 5, 0⟩ [⟨0, 1, fun _ => 7⟩] s₁ = .ok [0] s₂ ∧
      treediskGetsize ⟨ramdisk 5, 0⟩ 0 s₂ = 2 := by
  obtain ⟨s₁, s₂, hc, hw⟩ := ramdisk_run
  have hrun : treediskWrites ⟨ramdisk 5, 0⟩ [⟨0, 1, fun _ => 7⟩] s₁ = .ok [0] s₂ := by
    simp only [treediskWrites, bind, EStateM.bind, hw]
    rfl
  have hsize := (getsize_iff_offsets (ramdiskArray (by decide) 0) trivial rfl hc
    [⟨0, 1, fun _ => 7⟩] hrun (by simp)).2 (by simp)
  exact ⟨s₁, s₂, hc, hrun, hsize 0 (Or.inl (by decide))⟩

set_option maxRecDepth 100000 in
/-- **A write can make a file shorter**: with a block at the greatest offset, which is `2 ^ 32 - 1`,
the size of a file of one block becomes 0. -/
theorem write_shortens :
    ∃ s₁ s₂ s₃, treediskCreate (ramdisk 130) 0 1 (fun _ => nullBlock) = .ok 0 s₁ ∧
      treediskWrite ⟨ramdisk 130, 0⟩ 0 0 nullBlock s₁ = .ok 0 s₂ ∧
      treediskWrite ⟨ramdisk 130, 0⟩ 0 (2 ^ 32 - 1) nullBlock s₂ = .ok 0 s₃ ∧
      treediskGetsize ⟨ramdisk 130, 0⟩ 0 s₂ = 1 ∧ treediskGetsize ⟨ramdisk 130, 0⟩ 0 s₃ = 0 := by
  have hrun : returnsZero (treediskCreate (ramdisk 130) 0 1 fun _ => nullBlock) (fun s₁ =>
      returnsZero (treediskWrite ⟨ramdisk 130, 0⟩ 0 0 nullBlock s₁) fun s₂ =>
      returnsZero (treediskWrite ⟨ramdisk 130, 0⟩ 0 (2 ^ 32 - 1) nullBlock s₂) fun s₃ =>
        treediskGetsize ⟨ramdisk 130, 0⟩ 0 s₂ = 1 ∧
        treediskGetsize ⟨ramdisk 130, 0⟩ 0 s₃ = 0) = true := by
    decide +kernel
  obtain ⟨s₁, hc, hrun⟩ := of_returnsZero hrun
  obtain ⟨s₂, hw, hrun⟩ := of_returnsZero hrun
  obtain ⟨s₃, hw', hsizes⟩ := of_returnsZero hrun
  exact ⟨s₁, s₂, s₃, hc, hw, hw', of_decide_eq_true hsizes⟩

end Runs

/-! ### The places of blocks -/

/-- A place at which a block number can stand: the free list itself, a slot of a free-list block, or
a position in the tree of an inode. -/
inductive Place
  | list (k : ℕ)
  | slot (k : ℕ) (i : Fin 128)
  | tree (ino : ℕ) (p : List (Fin 128))

/-- The `k`-th block of the free list, or `0` past its end. -/
def freeListBlock (d : Disk) : ℕ → ℕ
  | 0 => (d 0).freeList
  | k + 1 => if freeListBlock d k = 0 then 0 else (d (freeListBlock d k)).word 0

namespace Place

/-- The block number at a place, or `0`. -/
def block (d : Disk) : Place → ℕ
  | list k => freeListBlock d k
  | slot k i => if freeListBlock d k = 0 then 0 else (d (freeListBlock d k)).word i
  | tree ino p => node (slots d) (.inode ino) p

/-- The places that count: `refs[0]` of a free-list block is the rest of the list, and the tree of
an inode is as high as its size calls for. -/
def Valid (d : Disk) : Place → Prop
  | list _ => True
  | slot _ i => i ≠ 0
  | tree ino p => ino < 64 * inodeBlocks d ∧ p.length ≤ nlevels (fileSize d ino)

/-- The root above a place. -/
def root : Place → Root
  | list _ => .free
  | slot _ _ => .free
  | tree ino _ => .inode ino

/-- The path from the root to a place. -/
def path : Place → List (Fin 128)
  | list k => List.replicate k 0
  | slot k i => List.replicate k 0 ++ [i]
  | tree _ p => p

theorem node_replicate (d : Disk) (k : ℕ) :
    node (slots d) .free (List.replicate k 0) = freeListBlock d k := by
  induction k with
  | zero => rfl
  | succ k ih => rw [List.replicate_succ', node_concat, ih, freeListBlock, slots_ref]

theorem block_eq_node (d : Disk) (pl : Place) : pl.block d = node (slots d) pl.root pl.path := by
  cases pl with
  | list k => exact (node_replicate d k).symm
  | slot k i => rw [block, root, path, node_concat, node_replicate, slots_ref]
  | tree ino p => rfl

theorem position (d : Disk) {pl : Place} (hv : pl.Valid d) :
    Position (inodeBlocks d) (heights d) pl.root pl.path := by
  cases pl with
  | list k =>
      intro i hi
      exact List.eq_of_mem_replicate (List.dropLast_subset _ hi)
  | slot k i =>
      intro j hj
      rw [path, List.dropLast_concat] at hj
      exact List.eq_of_mem_replicate hj
  | tree ino p => exact hv

/-- Every position is a place. -/
theorem exists_of_position {d : Disk} {r : Root} {p : List (Fin 128)}
    (hv : Position (inodeBlocks d) (heights d) r p) :
    ∃ pl : Place, pl.Valid d ∧ pl.root = r ∧ pl.path = p := by
  cases r with
  | inode ino => exact ⟨.tree ino p, hv, rfl, rfl⟩
  | free =>
      induction p using List.reverseRecOn with
      | nil => exact ⟨.list 0, trivial, rfl, rfl⟩
      | append_singleton q i _ =>
          have hq : q = List.replicate q.length 0 := by
            refine List.eq_replicate_of_mem fun j hj => hv j ?_
            rw [List.dropLast_concat]
            exact hj
          by_cases hi : i = 0
          · refine ⟨.list (q.length + 1), trivial, rfl, ?_⟩
            rw [path, List.replicate_succ', ← hq, hi]
          · refine ⟨.slot q.length i, hi, rfl, ?_⟩
            rw [path, ← hq]

theorem eq_of_path {d : Disk} {pl pl' : Place} (hv : pl.Valid d) (hv' : pl'.Valid d)
    (hr : pl.root = pl'.root) (hp : pl.path = pl'.path) : pl = pl' := by
  cases pl with
  | list k =>
      cases pl' with
      | list k' =>
          have hlen := congrArg List.length hp
          simp only [path, List.length_replicate] at hlen
          rw [hlen]
      | slot k' i' =>
          have hmem : i' ∈ List.replicate k (0 : Fin 128) := by
            rw [show List.replicate k 0 = List.replicate k' 0 ++ [i'] from hp]
            simp
          exact absurd (List.eq_of_mem_replicate hmem) hv'
      | tree ino' p' => exact absurd hr (by simp [root])
  | slot k i =>
      cases pl' with
      | list k' =>
          have hmem : i ∈ List.replicate k' (0 : Fin 128) := by
            rw [← show List.replicate k 0 ++ [i] = List.replicate k' 0 from hp]
            simp
          exact absurd (List.eq_of_mem_replicate hmem) hv
      | slot k' i' =>
          obtain ⟨h₁, h₂⟩ := List.append_inj' (show List.replicate k 0 ++ [i] =
            List.replicate k' 0 ++ [i'] from hp) rfl
          have hlen := congrArg List.length h₁
          simp only [List.length_replicate] at hlen
          rw [hlen, List.singleton_inj.1 h₂]
      | tree ino' p' => exact absurd hr (by simp [root])
  | tree ino p =>
      cases pl' with
      | list k' => exact absurd hr (by simp [root])
      | slot k' i' => exact absurd hr (by simp [root])
      | tree ino' p' => rw [Root.inode.inj hr, show p = p' from hp]

end Place

/-- No block stands at two places, even if some blocks stand nowhere. -/
theorem Wf.place_inj {N : ℕ} {d : Disk} {X : Set ℕ} (hw : Wf N d (heights d) X) {pl pl' : Place}
    (hv : pl.Valid d) (hv' : pl'.Valid d) (h0 : pl.block d ≠ 0) (h : pl.block d = pl'.block d) :
    pl = pl' := by
  rw [Place.block_eq_node] at h0 h
  rw [Place.block_eq_node] at h
  obtain ⟨hr, hp⟩ := hw.part.inj (Place.position d hv) (Place.position d hv') h0 h
  exact Place.eq_of_path hv hv' hr hp

/-- **The places of a well-formed file system share out the blocks.** -/
theorem Wf.place_partition {N : ℕ} {d : Disk} (hw : Wf N d (heights d) ∅) :
    (∀ b, inodeBlocks d + 1 ≤ b → b < N → ∃! pl : Place, pl.Valid d ∧ pl.block d = b) ∧
      ∀ pl : Place, pl.Valid d → pl.block d ≠ 0 →
        inodeBlocks d + 1 ≤ pl.block d ∧ pl.block d < N := by
  constructor
  · intro b hb hbN
    obtain ⟨r, p, hv, hnode⟩ := hw.part.cover ⟨hb, hbN⟩ (Set.notMem_empty b)
    obtain ⟨pl, hpl, rfl, rfl⟩ := Place.exists_of_position hv
    refine ⟨pl, ⟨hpl, by rw [Place.block_eq_node, hnode]⟩, ?_⟩
    rintro pl' ⟨hpl', hb'⟩
    refine hw.place_inj hpl' hpl (by omega) (hb'.trans ?_)
    rw [Place.block_eq_node, hnode]
  · intro pl hpl h0
    rw [Place.block_eq_node] at h0 ⊢
    exact hw.node_lt (Place.position d hpl) h0

/-! ### Reachable states -/

section Reachable

variable {σ : Type} {below : InodeStore σ} {belowIno N : ℕ} {Fails : String → Prop}

/-- The states of the store below that a file system leads to: it is created on a store that has
none, and then `treedisk_write` and `treedisk_create` are called any number of times, with any
arguments and any return values. -/
inductive TreediskReachable (A : ArrayStore below belowIno N Fails) : σ → Prop
  | init {s₀ s : σ} {ninodes : ℕ} (hinv : A.Inv s₀) (hfresh : (A.view s₀ 0).nInodeblocks = 0)
      (h : treediskCreate below belowIno ninodes s₀ = .ok 0 s) : TreediskReachable A s
  | write {s s' : σ} {ino off : ℕ} {blk : Block} {r : ℤ} (hs : TreediskReachable A s)
      (hoff : off < 2 ^ 32 - 1) (h : treediskWrite ⟨below, belowIno⟩ ino off blk s = .ok r s') :
      TreediskReachable A s'
  | create {s s' : σ} {ninodes : ℕ} {r : ℤ} (hs : TreediskReachable A s)
      (h : treediskCreate below belowIno ninodes s = .ok r s') : TreediskReachable A s'

/-- Where there is a file system, `treedisk_create` changes nothing. -/
theorem treediskCreate_existing {A : ArrayStore below belowIno N Fails} {s s' : σ} {ninodes : ℕ}
    {r : ℤ} (hN : 0 < N) (hinv : A.Inv s) (hn : (A.view s 0).nInodeblocks ≠ 0)
    (h : treediskCreate below belowIno ninodes s = .ok r s') : s' = s := by
  rw [treediskCreate, Hoare.get_bind_apply, A.read_eq s 0 hinv hN] at h
  simp only [if_neg hn] at h
  split at h <;> exact (EStateM.Result.ok.inj h).2.symm

/-- **Every reachable state is a file system at rest.** -/
theorem TreediskReachable.represents {A : ArrayStore below belowIno N Fails} {s : σ}
    (h : TreediskReachable A s) : A.Inv s ∧ ∃ n F, Represents N n (A.view s) F := by
  -- a creation on a store without a file system
  have hfirst : ∀ {s₀ s : σ} {ninodes : ℕ} {r : ℤ}, A.Inv s₀ →
      (A.view s₀ 0).nInodeblocks = 0 → treediskCreate below belowIno ninodes s₀ = .ok r s →
      (r = -1 ∧ A.HoldsOff ∅ (A.view s₀) s) ∨ (A.Inv s ∧ ∃ n F, Represents N n (A.view s) F) := by
    intro s₀ s ninodes r hinv hfresh hcreate
    have hc := treediskCreate_spec hfresh ninodes s₀ (A.holdsOff_view hinv)
    rw [hcreate] at hc
    rcases hc with ⟨hr, -, hs⟩ | ⟨D, ⟨-, hr⟩, hs⟩
    · exact Or.inl ⟨hr, hs⟩
    · exact Or.inr ⟨hs.1, _, _, hs.view_eq ▸ hr⟩
  induction h with
  | init hinv hfresh hcreate =>
      rcases hfirst hinv hfresh hcreate with ⟨hne, -⟩ | hres
      · exact absurd hne (by decide)
      · exact hres
  | @write s s' ino off blk r hs hoff hw ih =>
      obtain ⟨hinv, n, F, hr⟩ := ih
      by_cases hino : ino < 64 * n
      · have hspec := treediskWrite_spec hr hino hoff blk s (A.holdsOff_view hinv)
        rw [hw] at hspec
        obtain ⟨d', ⟨-, hr'⟩, hs'⟩ := hspec
        exact ⟨hs'.1, n, _, hs'.view_eq ▸ hr'⟩
      · rw [treediskWrite_out hr (A.holdsOff_view hinv) (by omega)] at hw
        obtain ⟨-, rfl⟩ := EStateM.Result.ok.inj hw
        exact ⟨hinv, n, F, hr⟩
  | @create s s' ninodes r hs hcreate ih =>
      obtain ⟨hinv, n, F, hr⟩ := ih
      by_cases hn : (A.view s 0).nInodeblocks = 0
      · rcases hfirst hinv hn hcreate with ⟨-, hs'⟩ | hres
        · exact ⟨hs'.1, n, F, hs'.view_eq.symm ▸ hr⟩
        · exact hres
      · have hroom := hr.wf.room
        rw [treediskCreate_existing (by omega) hinv hn hcreate]
        exact ⟨hinv, n, F, hr⟩

/-- **The blocks after the inode blocks are shared out** among the free list, the slots of the
free-list blocks and the trees of the inodes: each of them stands at exactly one place, and no other
block number stands anywhere. -/
theorem treedisk_block_partition (A : ArrayStore below belowIno N Fails) {s : σ}
    (h : TreediskReachable A s) :
    (∀ b, inodeBlocks (A.view s) + 1 ≤ b → b < N →
      ∃! pl : Place, pl.Valid (A.view s) ∧ pl.block (A.view s) = b) ∧
    ∀ pl : Place, pl.Valid (A.view s) → pl.block (A.view s) ≠ 0 →
      inodeBlocks (A.view s) + 1 ≤ pl.block (A.view s) ∧ pl.block (A.view s) < N := by
  obtain ⟨-, n, F, hr⟩ := h.represents
  exact hr.wf.place_partition

/-- The blocks of a RAM disk of five blocks, after a write. -/
theorem treedisk_block_partition_ramdisk :
    ∃ s : Disk, TreediskReachable (ramdiskArray (by decide : 5 < 2 ^ 32) 0) s ∧
      ∀ b, inodeBlocks s + 1 ≤ b → b < 5 → ∃! pl : Place, pl.Valid s ∧ pl.block s = b := by
  obtain ⟨s₁, s₂, hc, hw⟩ := ramdisk_run
  have h : TreediskReachable (ramdiskArray (by decide : 5 < 2 ^ 32) 0) s₂ :=
    .write (.init trivial rfl hc) (by decide) hw
  exact ⟨s₂, h, (treedisk_block_partition _ h).1⟩

end Reachable

end Egos
