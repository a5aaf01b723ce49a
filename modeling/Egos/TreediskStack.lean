/-
**File systems on top of file systems.**

`treedisk_init` returns an inode store, and takes one: a file system can be created in an inode of
another file system.  Its superblock, its free list and its trees are then blocks of a file of the
lower one, and one of its writes is several writes of that.

What makes this work is that an inode of a file system meets the contract that a file system needs
of the store below it: the reads and writes below the size of a file are those of an array of
blocks, also of the blocks that have never been written, and a write that runs out of space leaves
the array as it was.

Main definitions:

* `Egos.treediskArray` — **an inode of a file system is an array of blocks**;
* `Egos.StackOp`, `Egos.stackWrites` — writes to the upper and to the lower file system;
* `Egos.Stacked` — what the two store;
* `Egos.imageDisk` — a disk kept as one number, for the runs.

Main results:

* `Egos.treedisks_stack` — **the files of both are sparse arrays, and independent of each other**;
* `Egos.lower_write_reaches_upper` — a write at the greatest offset breaks this.
-/

import Egos.TreediskStop

set_option autoImplicit false

namespace Egos

open Function (update update_of_ne update_self)
open Hoare

/-! ### A disk image -/

/-- The byte `p` of an image, which is given as a number. -/
def imageByte (img p : ℕ) : UInt8 := UInt8.ofNat (img / 256 ^ p)

/-- The block `off` of an image. -/
def imageBlock (img off : ℕ) : Block := fun k => imageByte img (512 * off + k)

/-- The first `n` bytes of a block, as a number. -/
def Block.toNum (b : Block) : ℕ → ℕ
  | 0 => 0
  | n + 1 => b.toNum n + 256 ^ n * (b (Fin.ofNat 512 n)).toNat

/-- A RAM disk whose contents are one number.  It is the same as `ramdisk`, but runs on it can be
evaluated quickly. -/
def imageDisk (nblocks : ℕ) : InodeStore ℕ where
  getsize _ _ := nblocks
  setsize _ _ := throw "setsize: assertion failed"
  read _ off img := if off < nblocks then some (imageBlock img off) else none
  write _ off b := do
    if off < nblocks then
      modify fun img => 256 ^ (512 * off) * (256 ^ 512 * (img / 256 ^ (512 * off + 512)) +
        b.toNum 512) + img % 256 ^ (512 * off)
      return 0
    else throw "ramwrite: out of bounds"

theorem Block.toNum_lt (b : Block) (n : ℕ) : b.toNum n < 256 ^ n := by
  induction n with
  | zero => simp [Block.toNum]
  | succ n ih =>
      have hbyte := (b (Fin.ofNat 512 n)).toNat_lt
      have hmul : 256 ^ n * (b (Fin.ofNat 512 n)).toNat ≤ 256 ^ n * 255 :=
        Nat.mul_le_mul_left _ (by omega)
      rw [Block.toNum, Nat.pow_succ]
      omega

/-- The bytes below `256 ^ o` and those above it. -/
theorem imageByte_low {o p : ℕ} (hp : p < o) (hi lo : ℕ) :
    imageByte (256 ^ o * hi + lo) p = imageByte lo p := by
  obtain ⟨q, rfl⟩ := Nat.exists_eq_add_of_lt hp
  have hsplit : 256 ^ (p + q + 1) * hi + lo = 256 ^ p * (256 * (256 ^ q * hi)) + lo := by
    rw [show p + q + 1 = p + (1 + q) by omega, Nat.pow_add, Nat.pow_add, Nat.pow_one,
      Nat.mul_assoc, Nat.mul_assoc]
  rw [imageByte, imageByte, hsplit, Nat.mul_add_div (Nat.pow_pos (by decide))]
  refine UInt8.toNat_inj.1 ?_
  rw [UInt8.toNat_ofNat', UInt8.toNat_ofNat']
  omega

theorem imageByte_high {o lo : ℕ} (hlo : lo < 256 ^ o) (hi p : ℕ) :
    imageByte (256 ^ o * hi + lo) (o + p) = imageByte hi p := by
  rw [imageByte, imageByte, Nat.pow_add, ← Nat.div_div_eq_div_mul,
    Nat.mul_add_div (Nat.pow_pos (by decide)), Nat.div_eq_of_lt hlo, Nat.add_zero]

theorem imageByte_toNum (b : Block) {n : ℕ} (hn : n ≤ 512) {k : ℕ} (hk : k < n) :
    imageByte (b.toNum n) k = b ⟨k, by omega⟩ := by
  induction n with
  | zero => omega
  | succ n ih =>
      rw [Block.toNum, Nat.add_comm]
      by_cases hkn : k = n
      · subst hkn
        have hfin : Fin.ofNat 512 k = ⟨k, by omega⟩ := Fin.ext (Nat.mod_eq_of_lt (by omega))
        rw [hfin]
        have hbyte := imageByte_high (b.toNum_lt k) (b ⟨k, by omega⟩).toNat 0
        rw [Nat.add_zero] at hbyte
        rw [hbyte, imageByte, Nat.pow_zero, Nat.div_one, UInt8.ofNat_toNat]
      · rw [imageByte_low (by omega), ih (by omega) (by omega)]

/-- The bytes after a block has been written. -/
theorem imageByte_write (img off p : ℕ) (b : Block) :
    imageByte (256 ^ (512 * off) * (256 ^ 512 * (img / 256 ^ (512 * off + 512)) + b.toNum 512) +
        img % 256 ^ (512 * off)) p =
      if h : 512 * off ≤ p ∧ p < 512 * off + 512 then b ⟨p - 512 * off, by omega⟩
      else imageByte img p := by
  have hlo : img % 256 ^ (512 * off) < 256 ^ (512 * off) := Nat.mod_lt _ (Nat.pow_pos (by decide))
  rcases Nat.lt_or_ge p (512 * off) with hp | hp
  · rw [dif_neg (by omega), imageByte_low hp, ← imageByte_low hp (img / 256 ^ (512 * off)),
      Nat.div_add_mod]
  · obtain ⟨q, rfl⟩ := Nat.exists_eq_add_of_le hp
    rw [imageByte_high hlo]
    rcases Nat.lt_or_ge q 512 with hq | hq
    · rw [dif_pos (by omega), imageByte_low hq, imageByte_toNum b le_rfl hq]
      congr 2
      omega
    · obtain ⟨r, rfl⟩ := Nat.exists_eq_add_of_le hq
      rw [dif_neg (by omega), imageByte_high (b.toNum_lt 512), imageByte, imageByte,
        Nat.div_div_eq_div_mul, ← Nat.pow_add, Nat.add_assoc]

theorem imageDisk_getsize {nblocks : ℕ} (h : nblocks < 2 ^ 32) (ino : ℕ) :
    ∀ img : ℕ, True → (imageDisk nblocks).getsize ino img % 2 ^ 32 = nblocks := by
  intro img _
  change (nblocks : ℤ) % 2 ^ 32 = nblocks
  omega

theorem imageDisk_read (nblocks ino : ℕ) : ∀ (img : ℕ) (off : ℕ), True → off < nblocks →
    (imageDisk nblocks).read ino off img = some (imageBlock img off) :=
  fun _ _ _ hoff => if_pos hoff

/-- A block that is written is in its place of the image, and the others are as before. -/
theorem imageDisk_write (nblocks ino : ℕ) : ∀ (d : Disk) (off : ℕ) (b : Block), off < nblocks →
    Triple (fun img => True ∧ imageBlock img = d) ((imageDisk nblocks).write ino off b)
      (fun r img => r = 0 ∧ True ∧ imageBlock img = update d off b)
      (fun _ img => False ∧ True ∧ imageBlock img = d) := by
  rintro d off b hoff img ⟨-, rfl⟩
  have hw : (imageDisk nblocks).write ino off b img =
      .ok 0 (256 ^ (512 * off) * (256 ^ 512 * (img / 256 ^ (512 * off + 512)) + b.toNum 512) +
        img % 256 ^ (512 * off)) := by
    simp only [imageDisk, if_pos hoff]
    rfl
  rw [hw]
  refine ⟨rfl, trivial, ?_⟩
  funext x
  by_cases hx : x = off
  · subst hx
    rw [update_self]
    funext k
    rw [imageBlock, imageByte_write, dif_pos (by omega)]
    exact congrArg b (Fin.ext (by simp only; omega))
  · rw [update_of_ne hx]
    funext k
    rw [imageBlock, imageBlock, imageByte_write, dif_neg (by omega)]

/-- The image is an array of blocks. -/
def imageArray {nblocks : ℕ} (h : nblocks < 2 ^ 32) (ino : ℕ) :
    ArrayStore (imageDisk nblocks) ino nblocks fun _ => False where
  Inv _ := True
  view := imageBlock
  getsize_eq := imageDisk_getsize h ino
  read_eq := imageDisk_read nblocks ino
  write_spec := imageDisk_write nblocks ino

section Stack

variable {σ : Type} {below : InodeStore σ} {belowIno N : ℕ}
  {A : ArrayStore below belowIno N fun _ => False}

/-! ### The contract -/

/-- The lower file system stores the files `F`: the inode `j` has the size `M`, and the others are
those of `H`. -/
structure Lower (A : ArrayStore below belowIno N fun _ => False) (n j M : ℕ)
    (H F : ℕ → SparseArray Block nullBlock) (s : σ) : Prop where
  inv : A.Inv s
  files : Represents N n (A.view s) F
  size : (F j).size = M
  others : ∀ k, k ≠ j → F k = H k

variable {n j M : ℕ} {H F : ℕ → SparseArray Block nullBlock} {s : σ}

theorem Lower.holds (h : Lower A n j M H F s) : A.HoldsOff ∅ (A.view s) s := A.holdsOff_view h.inv

theorem Lower.fileSize_eq (h : Lower A n j M H F s) (hj : j < 64 * n) :
    fileSize (A.view s) j = M := by
  rw [← h.files.size j hj, h.size]

/-- The size of an inode, as the upper file system sees it. -/
theorem Lower.getsize_eq (h : Lower A n j M H F s) (hj : j < 64 * n) :
    treediskGetsize ⟨below, belowIno⟩ j s % 2 ^ 32 = M := by
  have hlt := fileSize_lt (A.view s) j
  rw [treediskGetsize_wf h.files.wf h.holds, h.files.blocks, if_pos hj]
  rw [h.fileSize_eq hj] at hlt ⊢
  split <;> omega

/-- A read below the size returns what is stored. -/
theorem Lower.read_eq (h : Lower A n j M H F s) (hj : j < 64 * n) {off : ℕ} (hoff : off < M) :
    treediskRead ⟨below, belowIno⟩ j off s = some ((F j).get off) := by
  have hlt := fileSize_lt (A.view s) j
  rw [h.fileSize_eq hj] at hlt
  rw [treediskRead_spec h.files h.holds j off (by omega), if_pos hj, SparseArray.read,
    if_pos (by rw [h.size]; exact hoff)]

/-- **A write below the size** changes the block written and no other, or the store is full and
nothing has changed. -/
theorem Lower.write (hj : j < 64 * n) {off : ℕ} (hoff : off < M) (b : Block) :
    Triple (Lower A n j M H F) (treediskWrite ⟨below, belowIno⟩ j off b)
      (fun r s => r = 0 ∧ ∃ F', Lower A n j M H F' s ∧ (F' j).get = update (F j).get off b)
      (fun e s => e = storeFull ∧ Lower A n j M H F s) := by
  intro s h
  have hsize := h.fileSize_eq hj
  have hlt := fileSize_lt (A.view s) j
  rw [hsize] at hlt
  have hspec := treediskWrite_spec h.files hj (show off < 2 ^ 32 - 1 by omega) b s h.holds
  cases hw : treediskWrite ⟨below, belowIno⟩ j off b s with
  | ok r s' =>
      rw [hw] at hspec
      obtain ⟨d', ⟨hr, hfiles⟩, hs'⟩ := hspec
      refine ⟨hr, _, ⟨hs'.1, hs'.view_eq.symm ▸ hfiles, ?_, ?_⟩, ?_⟩
      · rw [update_self, SparseArray.size_write, h.size]
        omega
      · intro k hk
        rw [update_of_ne hk]
        exact h.others k hk
      · rw [update_self]
        rfl
  | error e s' =>
      rw [hw] at hspec
      rcases hspec with ⟨-, hle, -⟩ | ⟨D, hh, hg, ⟨he, D', ⟨hwf, hsame⟩, hs'⟩ | ⟨he, -⟩⟩
      · omega
      · -- the file has not become longer
        exact ⟨he, hs'.1, hs'.view_eq.symm ▸ hg.represents h.files hwf hsame (by omega), h.size,
          h.others⟩
      · exact he.elim

/-- **An inode of a file system is an array of blocks.** -/
def treediskArray (A : ArrayStore below belowIno N fun _ => False) {n j : ℕ} (hj : j < 64 * n)
    (M : ℕ) (H : ℕ → SparseArray Block nullBlock) :
    ArrayStore (treediskInit below belowIno) j M fun e => e = storeFull where
  Inv s := ∃ F, Lower A n j M H F s
  view s off := contentAt (A.view s) (heights (A.view s)) j off
  getsize_eq := by
    rintro s ⟨F, h⟩
    exact h.getsize_eq hj
  read_eq := by
    rintro s off ⟨F, h⟩ hoff
    refine (h.read_eq hj hoff).trans ?_
    rw [h.files.get j off hj]
  write_spec := by
    rintro d off b hoff s ⟨⟨F, h⟩, rfl⟩
    have hget : ∀ {F s}, Lower A n j M H F s →
        (fun off => contentAt (A.view s) (heights (A.view s)) j off) = (F j).get := by
      intro F s h
      funext off
      exact (h.files.get j off hj).symm
    have hspec := Lower.write hj hoff b s h
    have hwrite : (treediskInit below belowIno).write j off b s =
        treediskWrite ⟨below, belowIno⟩ j off b s := rfl
    rw [hwrite]
    cases hw : treediskWrite ⟨below, belowIno⟩ j off b s with
    | ok r s' =>
        rw [hw] at hspec
        obtain ⟨hr, F', h', hF'⟩ := hspec
        refine ⟨hr, ⟨F', h'⟩, ?_⟩
        rw [hget h', hget h, hF']
    | error e s' =>
        rw [hw] at hspec
        refine ⟨hspec.1, ⟨F, hspec.2⟩, ?_⟩
        rw [hget hspec.2, hget h]

/-! ### Two file systems -/

/-- A write to the upper or to the lower file system. -/
inductive StackOp
  | upper (op : WriteOp)
  | lower (op : WriteOp)

/-- Call `treedisk_write` of the file system in the inode `j`, or of the one below it, for each
element of a list. -/
def stackWrites (ts : Treedisk σ) (j : ℕ) : List StackOp → EStateM String σ (List ℤ)
  | [] => return []
  | .upper op :: ops => do
      let r ← treediskWrite ⟨treediskInit ts.below ts.belowIno, j⟩ op.ino op.offset op.block
      let rs ← stackWrites ts j ops
      return r :: rs
  | .lower op :: ops => do
      let r ← treediskWrite ts op.ino op.offset op.block
      let rs ← stackWrites ts j ops
      return r :: rs

/-- The writes to the upper file system. -/
def uppers (ops : List StackOp) : List WriteOp := ops.filterMap fun op =>
  match op with
  | .upper op => some op
  | .lower _ => none

/-- The writes to the lower file system. -/
def lowers (ops : List StackOp) : List WriteOp := ops.filterMap fun op =>
  match op with
  | .upper _ => none
  | .lower op => some op

/-- What a write returns, if the file systems have `n` and `m` inode blocks. -/
def stackResult (n m : ℕ) : StackOp → ℤ
  | .upper op => if op.ino < 64 * m then 0 else -1
  | .lower op => if op.ino < 64 * n then 0 else -1

/-- **What the two file systems store**: the upper one the files `G`, in the inode `j` of the lower
one, whose other files are those of `H`. -/
def Stacked (A : ArrayStore below belowIno N fun _ => False) (n j M m : ℕ)
    (H G : ℕ → SparseArray Block nullBlock) (s : σ) : Prop :=
  ∃ F, Lower A n j M H F s ∧ Represents M m (F j).get G

variable {m : ℕ} {G : ℕ → SparseArray Block nullBlock}

/-- The inode of the lower file system is the disk of the upper one. -/
theorem Lower.holdsOff (hj : j < 64 * n) (h : Lower A n j M H F s) :
    (treediskArray A hj M H).HoldsOff ∅ (F j).get s := by
  refine ⟨⟨F, h⟩, fun x _ => ?_⟩
  exact (h.files.get j x hj).symm

theorem Stacked.of_holdsOff (hj : j < 64 * n) {d : Disk} (hr : Represents M m d G)
    (hs : (treediskArray A hj M H).HoldsOff ∅ d s) : Stacked A n j M m H G s := by
  obtain ⟨F, h⟩ := hs.1
  have hget : (F j).get = d := by
    rw [← (h.holdsOff hj).view_eq]
    exact hs.view_eq
  exact ⟨F, h, hget.symm ▸ hr⟩

/-- A write to the upper file system. -/
theorem Stacked.upper (hj : j < 64 * n) (op : WriteOp) (hoff : op.offset < 2 ^ 32 - 1) :
    Triple (Stacked A n j M m H G)
      (treediskWrite ⟨treediskInit below belowIno, j⟩ op.ino op.offset op.block)
      (fun r s => r = (if op.ino < 64 * m then 0 else -1) ∧
        Stacked A n j M m H (fun ino => (G ino).writes (writesTo ino [op])) s)
      (fun e _ => e = storeFull) := by
  rintro s ⟨F, h, hr⟩
  refine (treediskWrite_op hr op hoff).conseq (fun _ hs => hs) ?_ ?_ s (h.holdsOff hj)
  · rintro r s ⟨d, ⟨hr0, hr'⟩, hs⟩
    exact ⟨hr0, Stacked.of_holdsOff hj hr' hs⟩
  · rintro e s (he | he)
    · exact he
    · exact he

/-- A write to another inode of the lower file system. -/
theorem Stacked.lower (op : WriteOp) (hop : op.ino ≠ j) (hoff : op.offset < 2 ^ 32 - 1) :
    Triple (Stacked A n j M m H G) (treediskWrite ⟨below, belowIno⟩ op.ino op.offset op.block)
      (fun r s => r = (if op.ino < 64 * n then 0 else -1) ∧
        Stacked A n j M m (fun k => (H k).writes (writesTo k [op])) G s)
      (fun e _ => e = storeFull) := by
  rintro s ⟨F, h, hr⟩
  refine (treediskWrite_op h.files op hoff).conseq (fun _ hs => hs) ?_ ?_ s h.holds
  · rintro r s ⟨d, ⟨hr0, hr'⟩, hs⟩
    have hsame : (F j).writes (writesTo j [op]) = F j := by
      simp [writesTo, SparseArray.writes, beq_false_of_ne hop]
    refine ⟨hr0, _, ⟨hs.1, hs.view_eq.symm ▸ hr', ?_, ?_⟩, ?_⟩
    · rw [hsame]
      exact h.size
    · intro k hk
      rw [h.others k hk]
    · rw [hsame]
      exact hr
  · rintro e s (he | he)
    · exact he
    · exact he.elim

/-- **A run of writes to both file systems.** -/
theorem stackWrites_spec (hj : j < 64 * n) :
    ∀ ops H G, (∀ op ∈ uppers ops ++ lowers ops, op.offset < 2 ^ 32 - 1) →
      (∀ op ∈ lowers ops, op.ino ≠ j) →
      Triple (Stacked A n j M m H G) (stackWrites ⟨below, belowIno⟩ j ops)
        (fun rs s => rs = ops.map (stackResult n m) ∧
          Stacked A n j M m (fun k => (H k).writes (writesTo k (lowers ops)))
            (fun ino => (G ino).writes (writesTo ino (uppers ops))) s)
        (fun e _ => e = storeFull) := by
  intro ops
  induction ops with
  | nil =>
      intro H G _ _
      rw [stackWrites]
      exact Triple.pure fun s hs => ⟨rfl, hs⟩
  | cons op ops ih =>
      intro H G hoff hino
      cases op with
      | upper op =>
          have hup : uppers (.upper op :: ops) = op :: uppers ops := rfl
          have hlow : lowers (.upper op :: ops) = lowers ops := rfl
          rw [hup, hlow] at hoff
          rw [hlow] at hino
          rw [stackWrites, hup, hlow]
          refine Triple.bind (Stacked.upper hj op (hoff op (by simp))) fun r => Triple.of_pre ?_
          rintro rfl
          refine Triple.bind (ih H _ (fun op' h => hoff op' (by
            rw [List.cons_append]
            exact List.mem_cons_of_mem _ h)) hino) fun rs => Triple.of_pre ?_
          rintro rfl
          refine Triple.pure fun s hs => ⟨rfl, ?_⟩
          simp only [writes_writesTo_cons] at hs
          exact hs
      | lower op =>
          have hup : uppers (.lower op :: ops) = uppers ops := rfl
          have hlow : lowers (.lower op :: ops) = op :: lowers ops := rfl
          rw [hup, hlow] at hoff
          rw [hlow] at hino
          rw [stackWrites, hup, hlow]
          refine Triple.bind (Stacked.lower op (hino op (by simp)) (hoff op (by simp))) fun r =>
            Triple.of_pre ?_
          rintro rfl
          refine Triple.bind (ih _ G (fun op' h => hoff op' (by
            rcases List.mem_append.1 h with h | h
            · exact List.mem_append_left _ h
            · exact List.mem_append_right _ (List.mem_cons_of_mem _ h)))
            fun op' h => hino op' (List.mem_cons_of_mem _ h)) fun rs => Triple.of_pre ?_
          rintro rfl
          refine Triple.pure fun s hs => ⟨rfl, ?_⟩
          simp only [writes_writesTo_cons] at hs
          exact hs

/-! ### Independence -/

/-- The walk of `treedisk_read` depends on what can be read below only. -/
theorem readWalk_congr {below : InodeStore σ} {belowIno : ℕ} {s s' : σ}
    (h : ∀ off, off < 2 ^ 32 → below.read belowIno off s' = below.read belowIno off s) (off : ℕ) :
    ∀ n b, b < 2 ^ 32 → readWalk ⟨below, belowIno⟩ off s' n b =
      readWalk ⟨below, belowIno⟩ off s n b := by
  intro n
  induction n with
  | zero =>
      intro b hb
      rw [readWalk, readWalk, h b hb]
  | succ n ih =>
      intro b hb
      rw [readWalk, readWalk, h b hb]
      cases below.read belowIno b s with
      | none => rfl
      | some block =>
          simp only
          rw [ih _ (Block.word_lt _ _)]

theorem treediskGetSnapshot_congr {below : InodeStore σ} {belowIno : ℕ} {s s' : σ}
    (h : ∀ off, off < 2 ^ 32 → below.read belowIno off s' = below.read belowIno off s) (ino : ℕ) :
    treediskGetSnapshot ⟨below, belowIno⟩ ino s' = treediskGetSnapshot ⟨below, belowIno⟩ ino s := by
  rw [treediskGetSnapshot, treediskGetSnapshot, h 0 (by decide)]
  cases below.read belowIno 0 s with
  | none => rfl
  | some superblock =>
      simp only
      split
      · rfl
      · rename_i hino
        have hlt := Nat.mod_lt (superblock.nInodeblocks * 64) (show 0 < 2 ^ 32 by decide)
        rw [h (1 + ino / 64) (by omega)]

theorem treediskRead_congr {below : InodeStore σ} {belowIno : ℕ} {s s' : σ}
    (h : ∀ off, off < 2 ^ 32 → below.read belowIno off s' = below.read belowIno off s)
    (ino off : ℕ) :
    treediskRead ⟨below, belowIno⟩ ino off s' = treediskRead ⟨below, belowIno⟩ ino off s := by
  rw [treediskRead, treediskRead, treediskGetSnapshot_congr h]
  cases treediskGetSnapshot ⟨below, belowIno⟩ ino s with
  | none => rfl
  | some snapshot =>
      have hroot : snapshot.root < 2 ^ 32 := Block.word_lt _ _
      simp only
      rw [readWalk_congr h off _ _ hroot]

theorem treediskGetsize_congr {below : InodeStore σ} {belowIno : ℕ} {s s' : σ}
    (h : ∀ off, off < 2 ^ 32 → below.read belowIno off s' = below.read belowIno off s) (ino : ℕ) :
    treediskGetsize ⟨below, belowIno⟩ ino s' = treediskGetsize ⟨below, belowIno⟩ ino s := by
  rw [treediskGetsize, treediskGetsize, treediskGetSnapshot_congr h]

/-- A write to another inode of the lower file system, which may also run out of space, changes
nothing in the inode `j`. -/
theorem Lower.read_after (h : Lower A n j M H F s) {k off : ℕ} (hk : k ≠ j)
    (hoff : off < 2 ^ 32 - 1) (blk : Block) {o : ℕ} (ho : o < 2 ^ 32) :
    treediskRead ⟨below, belowIno⟩ j o
        (stateAfter (treediskWrite ⟨below, belowIno⟩ k off blk s)) =
      treediskRead ⟨below, belowIno⟩ j o s := by
  by_cases hino : k < 64 * n
  · have hspec := treediskWrite_spec h.files hino hoff blk s h.holds
    cases hw : treediskWrite ⟨below, belowIno⟩ k off blk s with
    | ok r s' =>
        exact (treediskWrite_keeps h.files h.holds hoff hw ho fun he => hk he.1.symm).1 hk.symm
    | error e s' =>
        rw [hw] at hspec
        have he : e = storeFull := by
          rcases hspec.fails with he | he
          · exact he
          · exact he.elim
        subst he
        obtain ⟨d', X, hkept, hs'⟩ := hspec.kept h.files hino id
        exact (hkept.read_of_ne h.files.wf h.holds hs' hk.symm).2 o ho
  · rw [treediskWrite_out h.files h.holds (by omega)]
    rfl

/-- **Treedisks stack.**  A file system is created in the inode `j` of another one, and then both
are written to, the lower one at other inodes, without exhausting a free list.  The upper one is a
sparse array of blocks for each inode; in the lower one the inode `j` keeps its size, and every
other inode that has not been written to keeps its size and its blocks.  A further write to another
inode of the lower one, even if it runs out of space, changes nothing that can be read through the
upper one. -/
theorem treedisks_stack (A : ArrayStore below belowIno N fun _ => False) {s₀ s₁ : σ}
    (hT : TreediskReachable A s₀) {j ninodes : ℕ}
    (hzero : treediskRead ⟨below, belowIno⟩ j 0 s₀ = some nullBlock)
    (hcreate : treediskCreate (treediskInit below belowIno) j ninodes s₀ = .ok 0 s₁)
    (ops : List StackOp) (hoff : ∀ op ∈ uppers ops ++ lowers ops, op.offset < 2 ^ 32 - 1)
    (hino : ∀ op ∈ lowers ops, op.ino ≠ j)
    (hfull : ∀ s, stackWrites ⟨below, belowIno⟩ j ops s₁ ≠ .error storeFull s) :
    ∃ s₂, stackWrites ⟨below, belowIno⟩ j ops s₁ =
        .ok (ops.map (stackResult (inodeBlocks (A.view s₀)) (inodeBlocksFor ninodes))) s₂ ∧
      (∀ ino off, off < 2 ^ 32 → treediskRead ⟨treediskInit below belowIno, j⟩ ino off s₂ =
        if ino < 64 * inodeBlocksFor ninodes ∧ ∃ w ∈ writesTo ino (uppers ops), off ≤ w.1 then
          some ((SparseArray.lastWritten off (writesTo ino (uppers ops))).getD nullBlock)
        else none) ∧
      treediskGetsize ⟨below, belowIno⟩ j s₂ = treediskGetsize ⟨below, belowIno⟩ j s₀ ∧
      (∀ k, k ≠ j → writesTo k (lowers ops) = [] →
        treediskGetsize ⟨below, belowIno⟩ k s₂ = treediskGetsize ⟨below, belowIno⟩ k s₀ ∧
        ∀ off, off < 2 ^ 32 → treediskRead ⟨below, belowIno⟩ k off s₂ =
          treediskRead ⟨below, belowIno⟩ k off s₀) ∧
      ∀ k off blk, k ≠ j → off < 2 ^ 32 - 1 → ∀ ino,
        treediskGetsize ⟨treediskInit below belowIno, j⟩ ino
            (stateAfter (treediskWrite ⟨below, belowIno⟩ k off blk s₂)) =
          treediskGetsize ⟨treediskInit below belowIno, j⟩ ino s₂ ∧
        ∀ off', treediskRead ⟨treediskInit below belowIno, j⟩ ino off'
            (stateAfter (treediskWrite ⟨below, belowIno⟩ k off blk s₂)) =
          treediskRead ⟨treediskInit below belowIno, j⟩ ino off' s₂ := by
  obtain ⟨hinv, n, F₀, hr₀⟩ := hT.represents
  have hs₀ := A.holdsOff_view hinv
  rw [treediskRead_spec hr₀ hs₀ j 0 (by decide)] at hzero
  have hj : j < 64 * n := by
    by_contra hlt
    rw [if_neg hlt] at hzero
    exact absurd hzero (by simp)
  rw [if_pos hj, SparseArray.read] at hzero
  have h₀ : Lower A n j (F₀ j).size F₀ F₀ s₀ := ⟨hinv, hr₀, rfl, fun _ _ => rfl⟩
  -- the block 0 of the inode is null, so there is no file system in it
  have hnull : (F₀ j).get 0 = nullBlock := by
    by_cases hpos : 0 < (F₀ j).size
    · rw [if_pos hpos] at hzero
      exact Option.some.inj hzero
    · exact (F₀ j).beyond 0 (by omega)
  have hfresh : ((F₀ j).get 0).nInodeblocks = 0 := by
    rw [hnull]
    rfl
  have hc := treediskCreate_spec (A := treediskArray A hj (F₀ j).size F₀) hfresh ninodes s₀
    (h₀.holdsOff hj)
  rw [hcreate] at hc
  rcases hc with ⟨hne, -⟩ | ⟨d₁, ⟨-, hr₁⟩, hs₁⟩
  · exact absurd hne (by decide)
  have hrun := stackWrites_spec hj ops F₀ (fun _ => SparseArray.empty) hoff hino s₁
    (Stacked.of_holdsOff hj hr₁ hs₁)
  cases hw : stackWrites ⟨below, belowIno⟩ j ops s₁ with
  | error e s =>
      rw [hw] at hrun
      have he : e = storeFull := hrun
      exact absurd (he ▸ hw) (hfull s)
  | ok rs s₂ =>
      rw [hw] at hrun
      obtain ⟨hrs, F, h, hr⟩ := hrun
      refine ⟨s₂, by rw [hr₀.blocks, hrs], ?_, ?_, ?_, ?_⟩
      · intro ino off ho
        rw [treediskRead_spec hr (h.holdsOff hj) ino off ho]
        by_cases hlt : ino < 64 * inodeBlocksFor ninodes
        · rw [if_pos hlt, SparseArray.read_writes_empty]
          simp only [hlt, true_and]
        · rw [if_neg hlt, if_neg fun hh => hlt hh.1]
      · rw [treediskGetsize_wf h.files.wf h.holds, treediskGetsize_wf hr₀.wf hs₀, h.files.blocks,
          hr₀.blocks, h.fileSize_eq hj, h₀.fileSize_eq hj]
      · intro k hk hnone
        have hF : F k = F₀ k := by
          rw [h.others k hk, hnone]
          rfl
        constructor
        · rw [treediskGetsize_wf h.files.wf h.holds, treediskGetsize_wf hr₀.wf hs₀, h.files.blocks,
            hr₀.blocks]
          by_cases hlt : k < 64 * n
          · rw [if_pos hlt, if_pos hlt, ← h.files.size k hlt, ← hr₀.size k hlt, hF]
          · rw [if_neg hlt, if_neg hlt]
        · intro off ho
          rw [treediskRead_spec h.files h.holds k off ho, treediskRead_spec hr₀ hs₀ k off ho, hF]
      · intro k off blk hk ho ino
        have hsame := fun o (ho' : o < 2 ^ 32) => h.read_after hk ho blk ho'
        exact ⟨treediskGetsize_congr hsame ino, fun off' => treediskRead_congr hsame ino off'⟩

end Stack

set_option maxRecDepth 100000 in
/-- A run on a disk of 20 blocks.  In the lower file system the last one of 4 blocks of the inode 0
is written, the upper one is created in this inode, and the first block of a file of it is written.
Then the inode 1 of the lower one gets a block that is full of the number 15, which is that of the
block with the inodes of the upper one, and a block at the greatest offset.  The size of a file
becomes 0 by that, and the tree is not grown: the 15 is read as a reference. -/
theorem stack_run : ∃ s₀ s₁ s₂ s₃ s₄,
    TreediskReachable (imageArray (by decide : 20 < 2 ^ 32) 0) s₀ ∧
    treediskRead ⟨imageDisk 20, 0⟩ 0 0 s₀ = some nullBlock ∧
    treediskCreate (treediskInit (imageDisk 20) 0) 0 1 s₀ = .ok 0 s₁ ∧
    treediskWrite ⟨treediskInit (imageDisk 20) 0, 0⟩ 0 0 (fun _ => 7) s₁ = .ok 0 s₂ ∧
    treediskWrite ⟨imageDisk 20, 0⟩ 1 0 (fun i => if i % 4 = 0 then 15 else 0) s₂ = .ok 0 s₃ ∧
    treediskWrite ⟨imageDisk 20, 0⟩ 1 (2 ^ 32 - 1) nullBlock s₃ = .ok 0 s₄ ∧
    treediskGetsize ⟨treediskInit (imageDisk 20) 0, 0⟩ 63 s₃ = 0 ∧
    treediskGetsize ⟨treediskInit (imageDisk 20) 0, 0⟩ 63 s₄ = 13 := by
  have hrun : returnsZero (treediskCreate (imageDisk 20) 0 1 0) (fun s =>
      returnsZero (treediskWrite ⟨imageDisk 20, 0⟩ 0 3 (fun _ => 7) s) fun s₀ =>
      (treediskRead ⟨imageDisk 20, 0⟩ 0 0 s₀).map (fun b => decide (∀ i, b.word i = 0)) =
        some true ∧
      returnsZero (treediskCreate (treediskInit (imageDisk 20) 0) 0 1 s₀) (fun s₁ =>
      returnsZero (treediskWrite ⟨treediskInit (imageDisk 20) 0, 0⟩ 0 0 (fun _ => 7) s₁) fun s₂ =>
      returnsZero (treediskWrite ⟨imageDisk 20, 0⟩ 1 0 (fun i => if i % 4 = 0 then 15 else 0) s₂)
      fun s₃ => returnsZero (treediskWrite ⟨imageDisk 20, 0⟩ 1 (2 ^ 32 - 1) nullBlock s₃) fun s₄ =>
        treediskGetsize ⟨treediskInit (imageDisk 20) 0, 0⟩ 63 s₃ = 0 ∧
        treediskGetsize ⟨treediskInit (imageDisk 20) 0, 0⟩ 63 s₄ = 13) = true) = true := by
    decide +kernel
  obtain ⟨s, hc, hrun⟩ := of_returnsZero hrun
  obtain ⟨s₀, hw, hrun⟩ := of_returnsZero hrun
  obtain ⟨hzero, hrun⟩ := of_decide_eq_true hrun
  obtain ⟨s₁, hu, hrun⟩ := of_returnsZero hrun
  obtain ⟨s₂, hwu, hrun⟩ := of_returnsZero hrun
  obtain ⟨s₃, hw₁, hrun⟩ := of_returnsZero hrun
  obtain ⟨s₄, hw₂, hsizes⟩ := of_returnsZero hrun
  refine ⟨s₀, s₁, s₂, s₃, s₄, .write (.init trivial rfl hc) (by decide) hw, ?_, hu, hwu, hw₁, hw₂,
    of_decide_eq_true hsizes⟩
  obtain ⟨b, hb, hnull⟩ := Option.map_eq_some_iff.mp hzero
  rw [hb, Block.eq_nullBlock (of_decide_eq_true hnull)]

/-- The first block of a file of the upper file system is read back, and its inode in the lower one
has kept its size. -/
theorem treedisks_stack_image : ∃ s₀ s₁ s₂,
    TreediskReachable (imageArray (by decide : 20 < 2 ^ 32) 0) s₀ ∧
    treediskCreate (treediskInit (imageDisk 20) 0) 0 1 s₀ = .ok 0 s₁ ∧
    stackWrites ⟨imageDisk 20, 0⟩ 0 [.upper ⟨0, 0, fun _ => 7⟩,
      .lower ⟨1, 0, fun i => if i % 4 = 0 then 15 else 0⟩] s₁ = .ok [0, 0] s₂ ∧
    treediskRead ⟨treediskInit (imageDisk 20) 0, 0⟩ 0 0 s₂ = some (fun _ => 7) ∧
    treediskGetsize ⟨imageDisk 20, 0⟩ 0 s₂ = treediskGetsize ⟨imageDisk 20, 0⟩ 0 s₀ := by
  obtain ⟨s₀, s₁, s₂, s₃, -, hT, hzero, hc, hw, hw', -⟩ := stack_run
  have hrun : stackWrites ⟨imageDisk 20, 0⟩ 0 [.upper ⟨0, 0, fun _ => 7⟩,
      .lower ⟨1, 0, fun i => if i % 4 = 0 then 15 else 0⟩] s₁ = .ok [0, 0] s₃ := by
    simp only [stackWrites, bind, EStateM.bind, hw, hw']
    rfl
  obtain ⟨s, hs, hread, hsize, -, -⟩ := treedisks_stack _ hT hzero hc
    [.upper ⟨0, 0, fun _ => 7⟩, .lower ⟨1, 0, fun i => if i % 4 = 0 then 15 else 0⟩]
    (by simp [uppers, lowers]) (by simp [lowers])
    (fun s' h => by rw [hrun] at h; exact absurd h (by simp))
  rw [hrun] at hs
  obtain ⟨hrs, rfl⟩ := EStateM.Result.ok.inj hs
  refine ⟨s₀, s₁, s₃, hT, hc, hrun, ?_, hsize⟩
  rw [hread 0 0 (by decide)]
  rfl

/-- **A write at the greatest offset of another inode reaches the upper file system**: its last
inode, which was empty, is a file of 13 blocks afterwards. -/
theorem lower_write_reaches_upper : ∃ s₀ s₁ s₂ s₃,
    TreediskReachable (imageArray (by decide : 20 < 2 ^ 32) 0) s₀ ∧
    treediskRead ⟨imageDisk 20, 0⟩ 0 0 s₀ = some nullBlock ∧
    treediskCreate (treediskInit (imageDisk 20) 0) 0 1 s₀ = .ok 0 s₁ ∧
    stackWrites ⟨imageDisk 20, 0⟩ 0 [.upper ⟨0, 0, fun _ => 7⟩,
      .lower ⟨1, 0, fun i => if i % 4 = 0 then 15 else 0⟩] s₁ = .ok [0, 0] s₂ ∧
    treediskWrite ⟨imageDisk 20, 0⟩ 1 (2 ^ 32 - 1) nullBlock s₂ = .ok 0 s₃ ∧
    treediskGetsize ⟨treediskInit (imageDisk 20) 0, 0⟩ 63 s₂ = 0 ∧
    treediskGetsize ⟨treediskInit (imageDisk 20) 0, 0⟩ 63 s₃ = 13 := by
  obtain ⟨s₀, s₁, s₂, s₃, s₄, hT, hzero, hc, hw, hw', hlast, hsizes⟩ := stack_run
  refine ⟨s₀, s₁, s₃, s₄, hT, hzero, hc, ?_, hlast, hsizes⟩
  simp only [stackWrites, bind, EStateM.bind, hw, hw']
  rfl

end Egos
