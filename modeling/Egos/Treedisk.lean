/-
**The treedisk file system.**

`library/file/file.c` implements a set of virtualized inode stores on top of a single inode of
another inode store.  The layout is the one of `library/file/file.h`: block `0` is the superblock,
then come the blocks of inodes, and every other block is either a node of the tree of an inode — all
data blocks are at the bottom level, and `0` stands for a hole — or on the free list, a linked list
of blocks each of which is filled with references to free blocks.

This module is the code, function by function.  The numbers of the source are 32-bit unsigned; they
are natural numbers here, reduced modulo `2 ^ 32` where the source can overflow.  A loop that stops
when a condition fails is a recursion on a bound that it cannot reach; `Egos.lt_pow_levels` and
`Egos.setupFreelist_spec` are the proofs that it does not.

Main definitions:

* `Egos.Treedisk` — the state of a file system: the store below it and an inode of that store;
* `Egos.treediskGetSnapshot`, `Egos.treediskAllocBlock` — the superblock and an inode, and taking a
  block from the free list;
* `Egos.treediskRead`, `Egos.treediskWrite`, `Egos.treediskGetsize` — the methods, and
  `Egos.treediskInit`, the store made of them;
* `Egos.setupFreelist`, `Egos.treediskCreate` — a new file system.
-/

import Egos.InodeStore

set_option autoImplicit false

namespace Egos

/-! ### Shifts and levels -/

/-- `log_shift_r`: shifting by the number of bits of a block number, or more, gives `0`. -/
def logShiftR (x nbits : ℕ) : ℕ := if nbits ≥ 32 then 0 else x >>> nbits

/-- The loop of `treedisk_init` that computes `log_rpb`. -/
def logRpbLoop (logRpb : ℕ) : ℕ → ℕ
  | 0 => logRpb
  | fuel + 1 =>
      if (128 - 1) >>> (logRpb + 1) ≠ 0 then logRpbLoop (logRpb + 1) fuel else logRpb + 1

/-- `log_rpb`, the logarithm of the number of references per block. -/
def logRpb : ℕ := logRpbLoop 0 32

theorem logRpb_eq : logRpb = 7 := by decide

/-- The loop `while (log_shift_r(x, nlevels * log_rpb) != 0) nlevels++`. -/
def levelLoop (x nlevels : ℕ) : ℕ → ℕ
  | 0 => nlevels
  | fuel + 1 =>
      if logShiftR x (nlevels * logRpb) ≠ 0 then levelLoop x (nlevels + 1) fuel else nlevels

/-- The number of levels of a tree whose last offset is `x`. -/
def levels (x : ℕ) : ℕ := levelLoop x 0 32

/-- The number of levels of the tree of a file of `nblocks` blocks. -/
def nlevels (nblocks : ℕ) : ℕ := if nblocks > 0 then levels (nblocks - 1) else 0

/-- The index into an indirect block with `n` levels below it. -/
def refIndex (offset n : ℕ) : Fin 128 := Fin.ofNat 128 (logShiftR offset (n * logRpb))

/-! ### Snapshots and allocation -/

/-- `struct treedisk_state` -/
structure Treedisk (σ : Type) where
  /-- The inode store below. -/
  below : InodeStore σ
  /-- The inode number to use for the inode store below. -/
  belowIno : ℕ

/-- `struct treedisk_snapshot`: the superblock, and the block that contains the inode.  The pointer
`inode` of the source points into that block, and is an index here. -/
structure Snapshot where
  superblock : Block
  inodeblock : Block
  inodeBlockno : ℕ
  inode : Fin 64

namespace Snapshot

/-- `snapshot->inode->root` -/
def root (snap : Snapshot) : ℕ := snap.inodeblock.inodeRoot snap.inode

/-- `snapshot->inode->nblocks` -/
def nblocks (snap : Snapshot) : ℕ := snap.inodeblock.inodeNblocks snap.inode

/-- Assignment to `snapshot->inode->root`. -/
def setRoot (snap : Snapshot) (v : ℕ) : Snapshot :=
  { snap with inodeblock := snap.inodeblock.setWord (Block.rootIdx snap.inode) v }

/-- Assignment to `snapshot->inode->nblocks`. -/
def setNblocks (snap : Snapshot) (v : ℕ) : Snapshot :=
  { snap with inodeblock := snap.inodeblock.setWord (Block.nblocksIdx snap.inode) v }

end Snapshot

variable {σ : Type}

/-- A write to the store below, followed by `panic` if it returns an error. -/
def writeOrPanic (below : InodeStore σ) (belowIno off : ℕ) (block : Block) (msg : String) :
    EStateM String σ Unit := do
  let r ← below.write belowIno off block
  if r < 0 then throw msg else return ()

/-- `treedisk_get_snapshot`: get the superblock, check the inode number, find the inode. -/
def treediskGetSnapshot (ts : Treedisk σ) (inodeNo : ℕ) (s : σ) : Option Snapshot :=
  match ts.below.read ts.belowIno 0 s with
  | none => none
  | some superblock =>
      if inodeNo ≥ superblock.nInodeblocks * 64 % 2 ^ 32 then none
      else
        match ts.below.read ts.belowIno (1 + inodeNo / 64) s with
        | none => none
        | some inodeblock =>
            some ⟨superblock, inodeblock, 1 + inodeNo / 64, Fin.ofNat 64 inodeNo⟩

/-- The scan of a free-list block from the last reference down: the index of the last reference that
is not `0`, or `0`. -/
def scanRefs (freelistblock : Block) : ℕ → ℕ
  | 0 => 0
  | i + 1 =>
      if freelistblock.word (Fin.ofNat 128 (i + 1)) ≠ 0 then i + 1 else scanRefs freelistblock i

/-- `treedisk_alloc_block`: if there is a free block reference use that, otherwise use the free list
block itself and update the superblock.  The source ignores the return value of the read; the
buffer it would then leave uninitialised is a null block here. -/
def treediskAllocBlock (ts : Treedisk σ) (snapshot : Snapshot) :
    EStateM String σ (ℕ × Snapshot) := do
  let b := snapshot.superblock.freeList
  if b = 0 then throw "treedisk_alloc_block: inode store is full\n"
  else
    let s ← get
    let freelistblock := (ts.below.read ts.belowIno b s).getD nullBlock
    let i := scanRefs freelistblock 127
    if i = 0 then
      let superblock := snapshot.superblock.setWord 1 (freelistblock.word 0)
      writeOrPanic ts.below ts.belowIno 0 superblock "treedisk_alloc_block: superblock"
      return (b, { snapshot with superblock := superblock })
    else
      let freeBlockno := freelistblock.word (Fin.ofNat 128 i)
      writeOrPanic ts.below ts.belowIno b (freelistblock.setWord (Fin.ofNat 128 i) 0)
        "treedisk_alloc_block: freelistblock"
      return (freeBlockno, snapshot)

/-! ### The methods -/

/-- `treedisk_getsize`: the number of blocks, returned through a signed `int`. -/
def treediskGetsize (ts : Treedisk σ) (ino : ℕ) (s : σ) : ℤ :=
  match treediskGetSnapshot ts ino s with
  | none => -1
  | some snapshot =>
      if snapshot.nblocks < 2 ^ 31 then snapshot.nblocks else (snapshot.nblocks : ℤ) - 2 ^ 32

/-- `treedisk_setsize` -/
def treediskSetsize (_ino _nblocks : ℕ) : EStateM String σ ℤ := return -1

/-- The walk of `treedisk_read` down from the block `b`. -/
def readWalk (ts : Treedisk σ) (offset : ℕ) (s : σ) : ℕ → ℕ → Option Block
  | nlevels, b =>
      -- If there's a hole, return the null block.
      if b = 0 then some nullBlock
      else
        match ts.below.read ts.belowIno b s with
        | none => none
        | some block =>
            match nlevels with
            | 0 => some block
            | n + 1 => readWalk ts offset s n (block.word (refIndex offset n))

/-- `treedisk_read` -/
def treediskRead (ts : Treedisk σ) (ino offset : ℕ) (s : σ) : Option Block :=
  match treediskGetSnapshot ts ino s with
  | none => none
  | some snapshot =>
      if offset ≥ snapshot.nblocks then none
      else readWalk ts offset s (nlevels snapshot.nblocks) snapshot.root

/-- The loop of `treedisk_write` that grows the tree by `k` levels, by inserting indirect blocks
above the root. -/
def growLoop (ts : Treedisk σ) : ℕ → Snapshot → EStateM String σ Snapshot
  | 0, snapshot => return snapshot
  | k + 1, snapshot => do
      let (indir, snapshot) ← treediskAllocBlock ts snapshot
      let tib := nullBlock.setWord 0 snapshot.root
      let snapshot := snapshot.setRoot indir
      writeOrPanic ts.below ts.belowIno indir tib "treedisk_write: indirect block"
      growLoop ts k snapshot

/-- The loop of `treedisk_write` that finds the block to write by walking the tree, allocating new
blocks if necessary.  `parentNo` is the word of `parentBlock` that refers to the next block; a new
indirect block is kept in `parentBlock` until its own reference has been filled in. -/
def writeWalk (ts : Treedisk σ) (offset : ℕ) :
    ℕ → Snapshot → Block → Fin 128 → ℕ → EStateM String σ ℕ
  | nlevels, snapshot, parentBlock, parentNo, parentOff => do
      if parentBlock.word parentNo = 0 then
        let (b, snapshot) ← treediskAllocBlock ts snapshot
        writeOrPanic ts.below ts.belowIno parentOff (parentBlock.setWord parentNo b)
          "treedisk_write: parent"
        match nlevels with
        | 0 => return b
        | n + 1 => writeWalk ts offset n snapshot nullBlock (refIndex offset n) b
      else
        let b := parentBlock.word parentNo
        match nlevels with
        | 0 => return b
        | n + 1 =>
            let s ← get
            match ts.below.read ts.belowIno b s with
            | none => throw "treedisk_write"
            | some tib => writeWalk ts offset n snapshot tib (refIndex offset n) b

/-- If the inode block was updated, write it back. -/
def writeInode (ts : Treedisk σ) (dirtyInode : Bool) (snapshot : Snapshot) :
    EStateM String σ Unit :=
  if dirtyInode then
    writeOrPanic ts.below ts.belowIno snapshot.inodeBlockno snapshot.inodeblock
      "treedisk_write: inode block"
  else return ()

/-- The last part of `treedisk_write`: find the block, and write it. -/
def writeData (ts : Treedisk σ) (offset : ℕ) (block : Block) (nlevels : ℕ) (snapshot : Snapshot) :
    EStateM String σ ℤ := do
  let b ← writeWalk ts offset nlevels snapshot snapshot.inodeblock (Block.rootIdx snapshot.inode)
    snapshot.inodeBlockno
  writeOrPanic ts.below ts.belowIno b block "treedisk_write: data block"
  return 0

/-- `treedisk_write` -/
def treediskWrite (ts : Treedisk σ) (ino offset : ℕ) (block : Block) : EStateM String σ ℤ := do
  let s ← get
  match treediskGetSnapshot ts ino s with
  | none => return -1
  | some snapshot =>
      let nlevels₀ := nlevels snapshot.nblocks
      -- Files cannot shrink by writing.
      let grows := decide (offset ≥ snapshot.nblocks)
      let snapshot := if grows then snapshot.setNblocks ((offset + 1) % 2 ^ 32) else snapshot
      let nlevelsAfter := if grows then levels offset else nlevels₀
      -- Grow the number of levels as needed, by `k` rounds of the loop.
      let k := if snapshot.nblocks = 0 then 0 else nlevelsAfter - nlevels₀
      let nlevels := if snapshot.nblocks = 0 then nlevelsAfter else nlevels₀ + k
      let snapshot ← growLoop ts k snapshot
      writeInode ts (grows || decide (0 < k)) snapshot
      writeData ts offset block nlevels snapshot

/-- `treedisk_init`: open a virtual inode store on the specified inode of the inode store below. -/
def treediskInit (below : InodeStore σ) (belowIno : ℕ) : InodeStore σ where
  getsize := treediskGetsize ⟨below, belowIno⟩
  setsize := treediskSetsize
  read := treediskRead ⟨below, belowIno⟩
  write := treediskWrite ⟨below, belowIno⟩

/-! ### Creating a file system -/

/-- The loop of `setup_freelist` that fills a free-list block with the next free blocks. -/
def fillRefs (nblocks : ℕ) : ℕ → Block → ℕ → ℕ → Block × ℕ × ℕ
  | 0, freelistData, i, nextFree => (freelistData, i, nextFree)
  | fuel + 1, freelistData, i, nextFree =>
      if i < 128 ∧ nextFree < nblocks then
        fillRefs nblocks fuel (freelistData.setWord (Fin.ofNat 128 i) nextFree) (i + 1)
          (nextFree + 1)
      else (freelistData, i, nextFree)

/-- The loop of `setup_freelist` that clears the remaining references. -/
def clearRefs : ℕ → Block → ℕ → Block
  | 0, freelistData, _ => freelistData
  | fuel + 1, freelistData, i =>
      if i < 128 then clearRefs fuel (freelistData.setWord (Fin.ofNat 128 i) 0) (i + 1)
      else freelistData

/-- What a round of `setup_freelist` puts into `freelist_data`, which starts uninitialised and is
filled anew in each round, and the next free block after that. -/
def freelistData (nblocks freelistBlock nextFree : ℕ) : Block × ℕ :=
  let filled := fillRefs nblocks 127 (nullBlock.setWord 0 freelistBlock) 1 nextFree
  (clearRefs 127 filled.1 filled.2.1, filled.2.2)

/-- The outer loop of `setup_freelist`, which writes the free-list blocks. -/
def setupFreelistLoop (below : InodeStore σ) (belowIno nblocks : ℕ) :
    ℕ → ℕ → ℕ → EStateM String σ ℕ
  | 0, freelistBlock, _ => return freelistBlock
  | fuel + 1, freelistBlock, nextFree => do
      if nextFree < nblocks then
        let (data, nextFree') := freelistData nblocks freelistBlock (nextFree + 1)
        writeOrPanic below belowIno nextFree data "treedisk_setup_freelist"
        setupFreelistLoop below belowIno nblocks fuel nextFree nextFree'
      else return freelistBlock

/-- `setup_freelist`: create the free list and return the block number of the first block on it. -/
def setupFreelist (below : InodeStore σ) (belowIno nextFree nblocks : ℕ) : EStateM String σ ℕ :=
  setupFreelistLoop below belowIno nblocks nblocks 0 nextFree

/-- The loop of `treedisk_create` that clears `k` inode blocks, from the block `i` on. -/
def clearInodes (below : InodeStore σ) (belowIno : ℕ) : ℕ → ℕ → EStateM String σ ℤ
  | 0, _ => return 0
  | k + 1, i => do
      let r ← below.write belowIno i nullBlock
      if r < 0 then return -1 else clearInodes below belowIno k (i + 1)

/-- `treedisk_create` -/
def treediskCreate (below : InodeStore σ) (belowIno ninodes : ℕ) : EStateM String σ ℤ := do
  let nInodeblocks := (ninodes + 64 - 1) % 2 ^ 32 / 64
  let s ← get
  let nblocks := (below.getsize belowIno s % 2 ^ 32).toNat
  if nblocks < nInodeblocks + 2 then return -1
  else
    match below.read belowIno 0 s with
    | none => return -1
    | some superblock =>
        if superblock.nInodeblocks = 0 then
          let freeList ← setupFreelist below belowIno (nInodeblocks + 1) nblocks
          let superblock := (nullBlock.setWord 0 nInodeblocks).setWord 1 freeList
          let r ← below.write belowIno 0 superblock
          if r < 0 then return -1
          else clearInodes below belowIno nInodeblocks 1
        else return 0

end Egos
