/-
**What `treedisk_create` leaves on the disk.**

The free list is built from its end: each round of `setup_freelist` takes the next block, makes it
the first block of the list and hangs up to 127 further blocks on it.  In terms of the forest of
`Egos/TreediskLayout.lean`, a round pushes a new node, which carries leaves, above the root of the
free list; so the loop is described on the disk that has the list as its free list already, with the
superblock and the inode blocks pending.

Main definitions:

* `Egos.FreeUpTo` — the disk of a new file system, with the blocks from a given one on not yet on
  the free list.

Main results:

* `Egos.setupFreelist_spec` — the free list holds all blocks after the inode blocks;
* `Egos.treediskCreate_spec` — **a new file system is well formed, and all its files are empty**.
-/

import Egos.TreediskWrite

set_option autoImplicit false

namespace Egos

open Function (update update_eq_self update_of_ne update_self)
open PointerForest Hoare

/-! ### A free-list block -/

theorem fillRefs_spec {N : ℕ} (hN : N < 2 ^ 32) :
    ∀ fuel blk i next, 128 ≤ fuel + i → i ≤ 128 → next ≤ N →
      ∃ blk' m, fillRefs N fuel blk i next = (blk', i + m, next + m) ∧ i + m ≤ 128 ∧
        next + m ≤ N ∧ (∀ j : Fin 128, j.val < i → blk'.word j = blk.word j) ∧
        ∀ j : Fin 128, i ≤ j.val → j.val < i + m → blk'.word j = next + (j.val - i) := by
  intro fuel
  induction fuel with
  | zero =>
      intro blk i next hfuel hi hnext
      exact ⟨blk, 0, rfl, hi, hnext, fun _ _ => rfl, fun j h₁ h₂ => absurd h₂ (by omega)⟩
  | succ fuel ih =>
      intro blk i next hfuel hi hnext
      rw [fillRefs]
      by_cases hc : i < 128 ∧ next < N
      · rw [if_pos hc]
        obtain ⟨blk', m, heq, hm, hnm, hlow, hval⟩ := ih (blk.setWord (Fin.ofNat 128 i) next)
          (i + 1) (next + 1) (by omega) (by omega) (by omega)
        have hival : (Fin.ofNat 128 i).val = i := Nat.mod_eq_of_lt hc.1
        refine ⟨blk', m + 1, ?_, by omega, by omega, ?_, ?_⟩
        · rw [heq, show i + 1 + m = i + (m + 1) by omega,
            show next + 1 + m = next + (m + 1) by omega]
        · intro j hj
          rw [hlow j (by omega), Block.word_setWord_of_ne]
          intro he
          rw [he, hival] at hj
          omega
        · intro j hij hjm
          by_cases hji : j.val = i
          · have hj : j = Fin.ofNat 128 i := Fin.ext (hji.trans hival.symm)
            rw [hlow j (by omega), hj, Block.word_setWord_self _ _ (by omega), hival]
            omega
          · rw [hval j (by omega) (by omega)]
            omega
      · rw [if_neg hc]
        exact ⟨blk, 0, rfl, hi, hnext, fun _ _ => rfl, fun j h₁ h₂ => absurd h₂ (by omega)⟩

theorem clearRefs_spec :
    ∀ fuel blk i, 128 ≤ fuel + i →
      ∀ j : Fin 128, (clearRefs fuel blk i).word j = if j.val < i then blk.word j else 0 := by
  intro fuel
  induction fuel with
  | zero =>
      intro blk i hfuel j
      rw [clearRefs, if_pos (by omega)]
  | succ fuel ih =>
      intro blk i hfuel j
      rw [clearRefs]
      by_cases hi : i < 128
      · rw [if_pos hi, ih _ _ (by omega)]
        have hival : (Fin.ofNat 128 i).val = i := Nat.mod_eq_of_lt hi
        by_cases hji : j.val = i
        · have hj : j = Fin.ofNat 128 i := Fin.ext (hji.trans hival.symm)
          rw [if_pos (by omega), if_neg (by omega), hj, Block.word_setWord_self _ _ (by omega)]
        · have hne : j ≠ Fin.ofNat 128 i := fun he => hji (by rw [he, hival])
          rw [Block.word_setWord_of_ne _ hne]
          by_cases hlt : j.val < i
          · rw [if_pos hlt, if_pos (by omega)]
          · rw [if_neg hlt, if_neg (by omega)]
      · rw [if_neg hi, if_pos (by omega)]

/-- The block that a round of `setup_freelist` writes holds the rest of the list and the `m` blocks
from `next + 1` on. -/
theorem freelistData_spec {N fl next : ℕ} (hN : N < 2 ^ 32) (hfl : fl < 2 ^ 32) (hnext : next < N) :
    ∃ data m, freelistData N fl (next + 1) = (data, next + 1 + m) ∧ next + 1 + m ≤ N ∧ m < 128 ∧
      data.word 0 = fl ∧ ∀ j : Fin 128, j ≠ 0 →
        data.word j = if j.val ≤ m then next + j.val else 0 := by
  obtain ⟨blk, m, heq, hm, hnm, hlow, hval⟩ := fillRefs_spec hN 127 (nullBlock.setWord 0 fl) 1
    (next + 1) (by omega) (by omega) (by omega)
  refine ⟨clearRefs 127 blk (1 + m), m, by rw [freelistData, heq], hnm, by omega, ?_, ?_⟩
  · rw [clearRefs_spec _ _ _ (by omega), if_pos (by simp),
      hlow 0 (by simp), Block.word_setWord_self _ _ hfl]
  · intro j hj
    have hj0 : j.val ≠ 0 := fun h => hj (Fin.ext h)
    rw [clearRefs_spec _ _ _ (by omega)]
    by_cases hjm : j.val ≤ m
    · rw [if_pos (by omega), if_pos hjm, hval j (by omega) (by omega)]
      omega
    · rw [if_neg (by omega), if_neg hjm]

/-! ### The free list -/

/-- The superblock of a new file system. -/
def superblockOf (n fl : ℕ) : Block := (nullBlock.setWord 0 n).setWord 1 fl

theorem freeList_superblockOf (n : ℕ) {fl : ℕ} (hfl : fl < 2 ^ 32) :
    (superblockOf n fl).freeList = fl := Block.word_setWord_self _ _ hfl

theorem nInodeblocks_superblockOf {n : ℕ} (hn : n < 2 ^ 32) (fl : ℕ) :
    (superblockOf n fl).nInodeblocks = n := by
  rw [superblockOf, Block.nInodeblocks, Block.word_setWord_of_ne _ (by decide),
    Block.word_setWord_self _ _ hn]

/-- The disk of a new file system with `n` inode blocks, on whose free list, which starts with `fl`,
are the blocks below `next`. -/
structure FreeUpTo (N n : ℕ) (D : Disk) (fl next : ℕ) : Prop where
  super : D 0 = superblockOf n fl
  inodes : ∀ i, 1 ≤ i → i ≤ n → D i = nullBlock
  lt : n < next
  wf : Wf N D (fun _ => 0) {b | next ≤ b ∧ b < N}

theorem FreeUpTo.bounds {N n fl next : ℕ} {D : Disk} (hf : FreeUpTo N n D fl next) (hfl : fl < N)
    (hn : n < N) : inodeBlocks D = n ∧ (D 0).freeList = fl := by
  have hN := hf.wf.bound
  rw [inodeBlocks, hf.super]
  exact ⟨nInodeblocks_superblockOf (by omega) fl, freeList_superblockOf n (by omega)⟩

/-- **A round of `setup_freelist`.** -/
theorem FreeUpTo.step {N n fl next : ℕ} {D : Disk} (hf : FreeUpTo N n D fl next) (hfl : fl < N)
    (hn : n < N) (hnext : next < N) {m : ℕ} (hm : m < 128) (hmN : next + 1 + m ≤ N) {data : Block}
    (h0 : data.word 0 = fl)
    (hdata : ∀ j : Fin 128, j ≠ 0 → data.word j = if j.val ≤ m then next + j.val else 0) :
    FreeUpTo N n (update (update D next data) 0 (superblockOf n next)) next
      (next + 1 + m) := by
  obtain ⟨hblocks, hfree⟩ := hf.bounds hfl hn
  have hN := hf.wf.bound
  have hlt := hf.lt
  have hD0 : update (update D next data) 0 (superblockOf n next) 0 =
      superblockOf n next := update_self _ _ _
  have hDn : update (update D next data) 0 (superblockOf n next) next = data := by
    rw [update_of_ne (by omega), update_self]
  have hD : ∀ x, x ≠ 0 → x ≠ next →
      update (update D next data) 0 (superblockOf n next) x = D x := by
    intro x hx0 hxn
    rw [update_of_ne hx0, update_of_ne hxn]
  generalize update (update D next data) 0 (superblockOf n next) = D' at *
  have hroot : slots D' (.root .free) = next := by
    rw [slots_free, hD0, freeList_superblockOf n (by omega)]
  have hblocks' : inodeBlocks D' = n := by
    rw [inodeBlocks, hD0, nInodeblocks_superblockOf (by omega)]
  have hpart := hf.wf.part
  rw [hblocks] at hpart
  have hpush := hpart.push (r := .free) (slots D') 0
    (position_closed _ _)
    (by rw [hroot]; exact ⟨le_refl _, hnext⟩)
    (by rw [hroot, slots_ref, hDn, h0, slots_free, hfree])
    ?_ ?_ (position_free_cons n fun _ => 0) (position_free_nil n _) (fun _ _ _ => Iff.rfl) ?_ ?_
  · refine ⟨hD0, fun i h1 hi => ?_, by omega, ⟨?_, hN, ?_, ?_⟩⟩
    · rw [hD i (by omega) (by omega)]
      exact hf.inodes i h1 hi
    · rw [hblocks']; have := hf.wf.room; omega
    · rw [hblocks']; have := hf.wf.inodes; omega
    · -- the detached blocks are now those from `next + 1 + m` on
      rw [hblocks']
      convert hpush using 1
      ext b
      simp only [Set.mem_ofPred_eq, Set.mem_sdiff, hroot, slots_ref, hDn, not_or, not_exists,
        not_and]
      constructor
      · rintro ⟨hb, hbN⟩
        refine ⟨⟨by omega, hbN⟩, by omega, fun j hj _ he => ?_⟩
        rw [hdata j hj] at he
        split at he <;> omega
      · rintro ⟨⟨hb, hbN⟩, hne, hall⟩
        refine ⟨?_, hbN⟩
        by_contra hlt'
        have hj : (⟨b - next, by omega⟩ : Fin 128) ≠ 0 := by
          intro he
          have := congrArg Fin.val he
          simp only [Fin.val_zero] at this
          omega
        refine hall ⟨b - next, by omega⟩ hj (by simp [Position]) ?_
        rw [hdata _ hj, if_pos (by simp only; omega)]
        simp only
        omega
  · intro r' hr' hv
    cases r' with
    | free => exact absurd rfl hr'
    | inode ino =>
        have hino : ino < 64 * n := hv.1
        rw [slots_inode, slots_inode, hD _ (by omega) (by omega)]
  · intro r' p i hv hne
    have hmem := hpart.mem (position_closed _ _ _ _ _ hv) hne
    refine congrArg (fun b : Block => b.word i) (hD _ hne fun he => hmem.2 ?_)
    rw [he]
    exact ⟨le_refl _, hnext⟩
  · intro j p hj hv hne
    rw [hroot, slots_ref, hDn, hdata j hj] at hne ⊢
    have hj0 : j.val ≠ 0 := fun h => hj (Fin.ext h)
    by_cases hjm : j.val ≤ m
    · rw [if_pos hjm] at hne ⊢
      exact ⟨⟨by omega, by omega⟩, by omega, position_free_leaf hj hv⟩
    · rw [if_neg hjm] at hne
      exact absurd rfl hne
  · intro j k hj hk hne he
    rw [hroot, slots_ref, slots_ref, hDn, hdata j hj] at he
    rw [hroot, slots_ref, hDn, hdata j hj] at hne
    rw [hdata k hk] at he
    refine Fin.ext ?_
    split at he
    · split at he <;> omega
    · rename_i hjm
      rw [if_neg hjm] at hne
      exact absurd rfl hne

section Code

variable {σ : Type} {below : InodeStore σ} {belowIno N : ℕ} {Fails : String → Prop}
  {A : ArrayStore below belowIno N Fails}

theorem setupFreelistLoop_spec {n : ℕ} (hn : n < N) :
    ∀ fuel D fl next, FreeUpTo N n D fl next → fl < N → next ≤ N → N ≤ fuel + next →
      Triple (A.HoldsOff {x | x ≤ n} D) (setupFreelistLoop below belowIno N fuel fl next)
        (fun fl' s => ∃ D', (fl' < N ∧ FreeUpTo N n D' fl' N) ∧ A.HoldsOff {x | x ≤ n} D' s)
        (fun e _ => WriteFails Fails e) := by
  intro fuel
  induction fuel with
  | zero =>
      intro D fl next hf hfl hnext hfuel
      obtain rfl : next = N := by omega
      rw [setupFreelistLoop]
      exact Triple.pure fun s hs => ⟨D, ⟨hfl, hf⟩, hs⟩
  | succ fuel ih =>
      intro D fl next hf hfl hnext hfuel
      have hN := hf.wf.bound
      have hlt := hf.lt
      have hfl' : fl < 2 ^ 32 := by omega
      rw [setupFreelistLoop]
      by_cases hc : next < N
      · rw [if_pos hc]
        obtain ⟨data, m, heq, hmN, hm, h0, hdata⟩ := freelistData_spec hN hfl' hc
        rw [heq]
        refine Triple.bind ((writeOrPanic_spec _ D next _ _ hc).conseq (fun _ hs => hs)
          (fun _ _ hq => hq) fun _ _ he => Or.inr he.1) fun _ => ?_
        refine (ih _ next (next + 1 + m) (hf.step hfl hn hc hm hmN h0 hdata) hc hmN
          (by omega)).conseq ?_ (fun _ _ hq => hq) fun _ _ he => he
        -- the superblock on the disk is still the old one
        intro s hs
        refine (hs.update 0 (superblockOf n next)).mono fun x hx => ?_
        rcases hx with rfl | hx
        · exact Nat.zero_le n
        · exact hx.1
      · rw [if_neg hc]
        obtain rfl : next = N := by omega
        exact Triple.pure fun s hs => ⟨D, ⟨hfl, hf⟩, hs⟩

/-- The free list starts out empty. -/
theorem freeUpTo_zero {n : ℕ} (hn : n + 2 ≤ N) (hN : N < 2 ^ 32) (hino : 64 * n < 2 ^ 32)
    (d : Disk) :
    FreeUpTo N n (fun b => if b = 0 then superblockOf n 0 else if b ≤ n then nullBlock else d b) 0
      (n + 1) := by
  have hblocks : inodeBlocks (fun b => if b = 0 then superblockOf n 0 else if b ≤ n then nullBlock
      else d b) = n := nInodeblocks_superblockOf (by omega) 0
  have hinodes : ∀ i, 1 ≤ i → i ≤ n → (if i = 0 then superblockOf n 0 else if i ≤ n then nullBlock
      else d i) = nullBlock := by
    intro i h1 hi
    rw [if_neg (by omega), if_pos hi]
  refine ⟨rfl, hinodes, by omega, ⟨by rw [hblocks]; exact hn, hN, by rw [hblocks]; exact hino, ?_⟩⟩
  rw [hblocks]
  -- all references are null
  have hnode : ∀ r p, Position n (fun _ => 0) r p → node (slots fun b => if b = 0 then
      superblockOf n 0 else if b ≤ n then nullBlock else d b) r p = 0 := by
    intro r p hv
    have hroot : slots (fun b => if b = 0 then superblockOf n 0 else if b ≤ n then nullBlock
        else d b) (.root r) = 0 := by
      cases r with
      | free => exact freeList_superblockOf n (by omega)
      | inode ino =>
          have hlt : ino < 64 * n := hv.1
          rw [slots_inode, hinodes _ (by omega) (by omega)]
          rfl
    rw [node, hroot, walk_zero]
  refine ⟨fun hv _ h0 => absurd (hnode _ _ hv) h0, fun hv h0 => absurd (hnode _ _ hv) h0, ?_, ?_,
    ?_⟩
  · intro b hb hX
    exact absurd ⟨hb.1, hb.2⟩ hX
  · intro h
    exact absurd h.1 (by omega)
  · intro b hb
    exact ⟨hb.1, hb.2⟩

/-- **`setup_freelist`** puts all blocks after the inode blocks on the free list. -/
theorem setupFreelist_spec {n : ℕ} (hn : n + 2 ≤ N) (hN : N < 2 ^ 32) (hino : 64 * n < 2 ^ 32)
    (d : Disk) :
    Triple (A.HoldsOff ∅ d) (setupFreelist below belowIno (n + 1) N)
      (fun fl s => ∃ D, (fl < N ∧ FreeUpTo N n D fl N) ∧ A.HoldsOff {x | x ≤ n} D s)
      (fun e _ => WriteFails Fails e) := by
  refine (setupFreelistLoop_spec (by omega) N _ 0 (n + 1) (freeUpTo_zero hn hN hino d) (by omega)
    (by omega) (by omega)).conseq ?_ (fun _ _ hq => hq) fun _ _ he => he
  intro s hs
  refine ⟨hs.1, fun x hx => ?_⟩
  have hx' : n < x := Nat.lt_of_not_le hx
  simp only [if_neg (show x ≠ 0 by omega), if_neg (show ¬ x ≤ n by omega)]
  exact hs.2 x (Set.notMem_empty x)

/-! ### The inode blocks -/

theorem clearInodes_spec {n : ℕ} (hn : n < N) {D : Disk}
    (hD : ∀ i, 1 ≤ i → i ≤ n → D i = nullBlock) :
    ∀ k i, 1 ≤ i → i + k = n + 1 →
      Triple (A.HoldsOff {x | i ≤ x ∧ x ≤ n} D) (clearInodes below belowIno k i)
        (fun r s => r = 0 ∧ A.HoldsOff ∅ D s) (fun e _ => WriteFails Fails e) := by
  intro k
  induction k with
  | zero =>
      intro i hi hk
      rw [clearInodes]
      refine Triple.pure fun s hs => ⟨rfl, hs.mono fun x hx => ?_⟩
      exact absurd (le_trans hx.1 hx.2) (by omega)
  | succ k ih =>
      intro i hi hk
      rw [clearInodes]
      refine Triple.bind ((A.write_holdsOff _ D i nullBlock (by omega)).conseq (fun _ hs => hs)
        (fun _ _ hq => hq) fun _ _ he => Or.inr he.1) fun r => Triple.of_pre fun hr => ?_
      subst hr
      refine (ih (i + 1) (by omega) (by omega)).conseq ?_ (fun _ _ hq => hq) fun _ _ he => he
      intro s hs
      rw [← hD i hi (by omega), update_eq_self] at hs
      refine hs.mono ?_
      rintro x ⟨⟨hx, hxn⟩, hne⟩
      exact ⟨Nat.lt_of_le_of_ne hx (Ne.symm hne), hxn⟩

/-! ### The whole creation -/

/-- A disk with empty inodes stores empty files. -/
theorem FreeUpTo.represents {n fl : ℕ} {D : Disk} (hf : FreeUpTo N n D fl N) (hfl : fl < N)
    (hn : n < N) : Represents N n D fun _ => SparseArray.empty := by
  obtain ⟨hblocks, -⟩ := hf.bounds hfl hn
  have hinode : ∀ ino, ino < 64 * n → D (1 + ino / 64) = nullBlock := fun ino hino =>
    hf.inodes _ (by omega) (by omega)
  have hsize : ∀ ino, ino < 64 * n → fileSize D ino = 0 := by
    intro ino hino
    rw [fileSize, hinode ino hino]
    rfl
  have hheights : ∀ ino, ino < 64 * n → heights D ino = 0 := by
    intro ino hino
    rw [heights, hsize ino hino]
    rfl
  have hempty : ({b | N ≤ b ∧ b < N} : Set ℕ) = ∅ := by
    refine Set.eq_empty_iff_forall_notMem.2 fun b hb => ?_
    exact absurd (lt_of_le_of_lt hb.1 hb.2) (lt_irrefl N)
  have hwf := hf.wf
  rw [hempty] at hwf
  refine ⟨hwf.congr_heights (by rw [hblocks]; exact hheights), hblocks, ?_, ?_⟩
  · intro ino hino
    rw [hsize ino hino]
    rfl
  · intro ino off hino
    have hroot : slots D (.root (.inode ino)) = 0 := by
      rw [slots_inode, hinode ino hino]
      rfl
    have hdata : dataAt D (heights D) ino off = 0 := by
      rw [dataAt, node, hroot, walk_zero, ite_self]
    rw [contentAt, if_pos hdata]
    rfl

/-- The number of inode blocks that `treedisk_create` reserves. -/
def inodeBlocksFor (ninodes : ℕ) : ℕ := (ninodes + 64 - 1) % 2 ^ 32 / 64

/-- **`treedisk_create`** on a disk without a file system either refuses, or puts all blocks on the
free list and clears the inodes. -/
theorem treediskCreate_free {d : Disk} (hd : (d 0).nInodeblocks = 0) (ninodes : ℕ) :
    Triple (A.HoldsOff ∅ d) (treediskCreate below belowIno ninodes)
      (fun r s => (r = -1 ∧ N < inodeBlocksFor ninodes + 2 ∧ A.HoldsOff ∅ d s) ∨
        ∃ D fl, (r = 0 ∧ fl < N ∧ inodeBlocksFor ninodes < N ∧
          FreeUpTo N (inodeBlocksFor ninodes) D fl N) ∧ A.HoldsOff ∅ D s)
      (fun e _ => WriteFails Fails e) := by
  rw [treediskCreate]
  refine Triple.get_bind fun s₀ hs₀ => ?_
  have hmod := A.getsize_eq s₀ hs₀.1
  have hN : N < 2 ^ 32 := by
    have := Int.emod_lt_of_pos (below.getsize belowIno s₀) (show (0 : ℤ) < 2 ^ 32 by decide)
    omega
  change Triple _ (if (below.getsize belowIno s₀ % 2 ^ 32).toNat < inodeBlocksFor ninodes + 2 then _
    else _) _ _
  rw [hmod, Int.toNat_natCast]
  by_cases hroom : N < inodeBlocksFor ninodes + 2
  · rw [if_pos hroom]
    exact Triple.pure fun s hs => Or.inl ⟨rfl, hroom, hs ▸ hs₀⟩
  · rw [if_neg hroom, A.read_holdsOff hs₀ (by omega) (Set.notMem_empty _)]
    change Triple _ (if (d 0).nInodeblocks = 0 then _ else _) _ _
    rw [if_pos hd]
    have hino : 64 * inodeBlocksFor ninodes < 2 ^ 32 := by
      rw [inodeBlocksFor]
      omega
    refine Triple.bind ((setupFreelist_spec (by omega) hN hino d).conseq
      (fun s hs => hs ▸ hs₀) (fun _ _ hq => hq) fun _ _ he => he) fun fl =>
      Triple.of_exists fun D => Triple.of_pre ?_
    rintro ⟨hfl, hf⟩
    have hn : inodeBlocksFor ninodes < N := by omega
    refine Triple.bind ((A.write_holdsOff _ D 0 (superblockOf (inodeBlocksFor ninodes) fl)
      (by omega)).conseq (fun _ hs => hs) (fun _ _ hq => hq) fun _ _ he => Or.inr he.1) fun r =>
      Triple.of_pre fun hr => ?_
    subst hr
    refine (clearInodes_spec (A := A) hn hf.inodes _ 1 (le_refl 1) (Nat.add_comm _ _)).conseq ?_ ?_
      fun _ _ he => he
    · intro s hs
      rw [← hf.super, update_eq_self] at hs
      refine hs.mono ?_
      rintro x ⟨hx, hne⟩
      exact ⟨Nat.pos_of_ne_zero hne, hx⟩
    · rintro r s ⟨hr, hs⟩
      exact Or.inr ⟨D, fl, ⟨hr, hfl, hn, hf⟩, hs⟩

/-- **`treedisk_create`** on a disk without a file system either refuses, or leaves a well-formed
file system whose files are empty. -/
theorem treediskCreate_spec {d : Disk} (hd : (d 0).nInodeblocks = 0) (ninodes : ℕ) :
    Triple (A.HoldsOff ∅ d) (treediskCreate below belowIno ninodes)
      (fun r s => (r = -1 ∧ N < inodeBlocksFor ninodes + 2 ∧ A.HoldsOff ∅ d s) ∨
        ∃ D, (r = 0 ∧ Represents N (inodeBlocksFor ninodes) D fun _ => SparseArray.empty) ∧
          A.HoldsOff ∅ D s)
      (fun e _ => WriteFails Fails e) := by
  refine (treediskCreate_free hd ninodes).conseq (fun _ hs => hs) ?_ fun _ _ he => he
  rintro r s (hrefused | ⟨D, fl, ⟨hr, hfl, hn, hf⟩, hs⟩)
  · exact Or.inl hrefused
  · exact Or.inr ⟨D, ⟨hr, hf.represents hfl hn⟩, hs⟩

end Code

end Egos
