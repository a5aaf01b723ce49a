/-
**The order in which the blocks of the free list are handed out.**

The free list is a chain of blocks, each with up to 127 references to free blocks: the allocator
takes the references of the first block from the last one down, then that block itself, and goes on
with the next one.  So a disk determines the list of the free blocks in the order in which they are
taken.  Each allocation removes the first element of that list, and the contents of the blocks that
are not on it do not matter.

Main definitions:

* `Egos.FreeList` — the blocks on the free list, in the order in which they are taken;
* `Egos.AllocRun` — allocations, with snapshots that are read again and blocks that are overwritten.

Main results:

* `Egos.FreeList.alloc` — **an allocation takes the first block of the list**;
* `Egos.setupFreelistLoop_freeList` — `setup_freelist` puts each block on the list once;
* `Egos.alloc_exactly_once` — **the allocator hands out every block exactly once, and then panics**.
-/

import Egos.TreediskFiles
import Mathlib.Data.List.GetD
import Mathlib.Data.List.Perm.Basic
import Mathlib.Data.List.Range

set_option autoImplicit false

namespace Egos

open Function (update update_of_ne update_self)
open Hoare

/-! ### A free-list block -/

/-- The references of a free-list block to free blocks; the first word refers to the next block. -/
structure Refs (blk : Block) (refs : List ℕ) : Prop where
  length_le : refs.length ≤ 127
  ne_zero : 0 ∉ refs
  word : ∀ i : Fin 128, i ≠ 0 → blk.word i = refs.getD (i.val - 1) 0

theorem ofNat_val {k : ℕ} (hk : k < 128) : (Fin.ofNat 128 k).val = k := Nat.mod_eq_of_lt hk

theorem ofNat_ne_zero {k : ℕ} (hpos : 0 < k) (hk : k < 128) : Fin.ofNat 128 k ≠ 0 := by
  intro h
  have hval : (Fin.ofNat 128 k).val = 0 := congrArg Fin.val h
  rw [ofNat_val hk] at hval
  omega

/-- Without references the scan of the block finds nothing. -/
theorem Refs.scan_nil {blk : Block} (h : Refs blk []) : scanRefs blk 127 = 0 := by
  rcases scanRefs_spec blk 127 with ⟨hs, -⟩ | ⟨hpos, hle, hne⟩
  · exact hs
  · rw [h.word _ (ofNat_ne_zero hpos (by omega)), List.getD_nil] at hne
    exact absurd rfl hne

/-- Where the scan of a free-list block stops. -/
theorem scanRefs_eq {blk : Block} {k : ℕ} (hk : blk.word (Fin.ofNat 128 k) ≠ 0) (hpos : 0 < k) :
    ∀ n, k ≤ n → (∀ i, k < i → i ≤ n → blk.word (Fin.ofNat 128 i) = 0) → scanRefs blk n = k := by
  intro n
  induction n with
  | zero =>
      intro hkn
      omega
  | succ n ih =>
      intro hkn hz
      rw [scanRefs]
      rcases Nat.lt_or_eq_of_le hkn with hlt | rfl
      · rw [if_neg (not_not.2 (hz (n + 1) hlt le_rfl))]
        exact ih (by omega) fun i hi hin => hz i hi (by omega)
      · rw [if_pos hk]

section Concat

variable {blk : Block} {refs : List ℕ} {r : ℕ}

/-- The last reference. -/
theorem Refs.word_last (h : Refs blk (refs ++ [r])) :
    blk.word (Fin.ofNat 128 (refs.length + 1)) = r := by
  have hlen := h.length_le
  rw [List.length_append, List.length_singleton] at hlen
  rw [h.word _ (ofNat_ne_zero (by omega) (by omega)), ofNat_val (by omega), Nat.add_sub_cancel,
    List.getD_append_right _ _ _ _ le_rfl, Nat.sub_self, List.getD_cons_zero]

/-- The scan of the block finds the last reference. -/
theorem Refs.scan_concat (h : Refs blk (refs ++ [r])) : scanRefs blk 127 = refs.length + 1 := by
  have hlen := h.length_le
  rw [List.length_append, List.length_singleton] at hlen
  have hr : r ≠ 0 := by
    rintro rfl
    exact h.ne_zero (List.mem_append_right _ (List.mem_singleton.2 rfl))
  refine scanRefs_eq (h.word_last ▸ hr) (by omega) 127 hlen fun i hi hin => ?_
  rw [h.word _ (ofNat_ne_zero (by omega) (by omega)), ofNat_val (by omega)]
  refine List.getD_eq_default _ _ ?_
  rw [List.length_append, List.length_singleton]
  omega

/-- Clearing the last reference. -/
theorem Refs.clear_last (h : Refs blk (refs ++ [r])) :
    Refs (blk.setWord (Fin.ofNat 128 (refs.length + 1)) 0) refs := by
  have hlen := h.length_le
  rw [List.length_append, List.length_singleton] at hlen
  refine ⟨by omega, fun h0 => h.ne_zero (List.mem_append_left _ h0), fun i hi => ?_⟩
  have hi0 : i.val ≠ 0 := fun h => hi (Fin.ext h)
  by_cases hik : i = Fin.ofNat 128 (refs.length + 1)
  · rw [hik, Block.word_setWord_self _ _ (by decide), ofNat_val (by omega),
      List.getD_eq_default _ _ (by omega)]
  · have hne : i.val ≠ refs.length + 1 := fun h =>
      hik (Fin.ext (h.trans (ofNat_val (by omega)).symm))
    rw [Block.word_setWord_of_ne _ hik, h.word i hi]
    rcases Nat.lt_or_ge (i.val - 1) refs.length with hlt | hge
    · exact List.getD_append _ _ _ _ hlt
    · rw [List.getD_eq_default refs _ hge]
      refine List.getD_eq_default _ _ ?_
      rw [List.length_append, List.length_singleton]
      omega

end Concat

/-! ### The list -/

/-- **The blocks on the free list that starts at a block**, in the order in which they are taken. -/
inductive FreeList (d : Disk) : ℕ → List ℕ → Prop
  | nil : FreeList d 0 []
  | cons {b : ℕ} {refs L : List ℕ} (hb : b ≠ 0) (hrefs : Refs (d b) refs)
      (hrest : FreeList d ((d b).word 0) L) : FreeList d b (refs.reverse ++ b :: L)

section List

variable {d d' : Disk} {b : ℕ} {L : List ℕ}

/-- Only the blocks on the list matter. -/
theorem FreeList.congr (h : FreeList d b L) (hd : ∀ x ∈ L, d' x = d x) : FreeList d' b L := by
  induction h with
  | nil => exact .nil
  | @cons b refs L hb hrefs _ ih =>
      have hdb : d' b = d b := hd b (List.mem_append_right _ List.mem_cons_self)
      refine .cons hb (hdb ▸ hrefs) ?_
      rw [hdb]
      exact ih fun x hx => hd x (List.mem_append_right _ (List.mem_cons_of_mem _ hx))

theorem FreeList.eq_zero (h : FreeList d b []) : b = 0 := by
  generalize hl : ([] : List ℕ) = l at h
  cases h with
  | nil => rfl
  | cons => exact absurd hl.symm (by simp)

/-- The free-list block itself is taken when it has no references left. -/
theorem FreeList.alloc_block (hb : (d 0).freeList = b) (hrefs : Refs (d b) [])
    (hrest : FreeList d ((d b).word 0) L) (h0 : 0 ∉ L) :
    allocNo d = b ∧ FreeList (allocDisk d) ((allocDisk d) 0).freeList L := by
  have hslot : allocSlot d = 0 := by
    rw [allocSlot, hb]
    exact hrefs.scan_nil
  have hhead : ((allocDisk d) 0).freeList = (d b).word 0 := by
    rw [allocDisk, if_pos hslot, update_self, hb, Block.freeList,
      Block.word_setWord_self _ _ (Block.word_lt _ _)]
  refine ⟨by rw [allocNo, if_pos hslot, hb], ?_⟩
  rw [hhead]
  refine hrest.congr fun x hx => ?_
  have hne : x ≠ 0 := fun h => h0 (h ▸ hx)
  rw [allocDisk, if_pos hslot, update_of_ne hne]

/-- The last reference of the first free-list block is taken. -/
theorem FreeList.alloc_ref (hb : (d 0).freeList = b) (hb0 : b ≠ 0) {refs : List ℕ} {r : ℕ}
    (hrefs : Refs (d b) (refs ++ [r])) (hrest : FreeList d ((d b).word 0) L) (hbL : b ∉ L) :
    allocNo d = r ∧ FreeList (allocDisk d) ((allocDisk d) 0).freeList (refs.reverse ++ b :: L) := by
  have hlen := hrefs.length_le
  rw [List.length_append, List.length_singleton] at hlen
  have hslot : allocSlot d = refs.length + 1 := by
    rw [allocSlot, hb]
    exact hrefs.scan_concat
  have hdisk : allocDisk d = update d b
      ((d b).setWord (Fin.ofNat 128 (refs.length + 1)) 0) := by
    rw [allocDisk, if_neg (by omega), hslot, hb]
  have hblk : allocDisk d b = (d b).setWord (Fin.ofNat 128 (refs.length + 1)) 0 := by
    rw [hdisk, update_self]
  have hhead : ((allocDisk d) 0).freeList = b := by
    rw [hdisk, update_of_ne (Ne.symm hb0), hb]
  refine ⟨by rw [allocNo, if_neg (by omega), hslot, hb, hrefs.word_last], ?_⟩
  rw [hhead]
  refine .cons hb0 (hblk ▸ hrefs.clear_last) ?_
  rw [hblk, Block.word_setWord_of_ne _ (Ne.symm (ofNat_ne_zero (by omega) (by omega)))]
  refine hrest.congr fun x hx => ?_
  have hne : x ≠ b := fun h => hbL (h ▸ hx)
  rw [hdisk, update_of_ne hne]

/-- **An allocation takes the first block of the list.** -/
theorem FreeList.alloc {a : ℕ} (h : FreeList d (d 0).freeList (a :: L)) (hnd : (a :: L).Nodup)
    (h0 : 0 ∉ a :: L) :
    (d 0).freeList ≠ 0 ∧ allocNo d = a ∧ FreeList (allocDisk d) ((allocDisk d) 0).freeList L := by
  generalize hb : (d 0).freeList = b at h
  generalize hl : a :: L = l at h
  cases h with
  | nil => exact absurd hl (List.cons_ne_nil _ _)
  | @cons b refs L₀ hb0 hrefs hrest =>
      refine ⟨hb0, ?_⟩
      rcases List.eq_nil_or_concat refs with rfl | ⟨refs, r, rfl⟩
      · obtain ⟨rfl, rfl⟩ := List.cons.inj hl
        exact FreeList.alloc_block hb hrefs hrest fun h => h0 (List.mem_cons_of_mem _ h)
      · rw [List.concat_eq_append] at hrefs
        rw [List.concat_eq_append, List.reverse_append, List.reverse_singleton,
          List.singleton_append, List.cons_append] at hl
        obtain ⟨rfl, rfl⟩ := List.cons.inj hl
        have hnd' := (List.nodup_append.1 (List.nodup_cons.1 hnd).2).2.1
        exact FreeList.alloc_ref hb hb0 hrefs hrest (List.nodup_cons.1 hnd').1

end List

/-! ### Building the list -/

/-- The references that a round of `setup_freelist` writes. -/
theorem refs_of_freelistData {data : Block} {next m : ℕ} (hm : m < 128)
    (hdata : ∀ j : Fin 128, j ≠ 0 → data.word j = if j.val ≤ m then next + j.val else 0) :
    Refs data (List.range' (next + 1) m) := by
  refine ⟨by rw [List.length_range']; omega, ?_, fun i hi => ?_⟩
  · rw [List.mem_range'_1]
    omega
  · have hi0 : i.val ≠ 0 := fun h => hi (Fin.ext h)
    rw [hdata i hi]
    by_cases him : i.val ≤ m
    · rw [if_pos him, List.getD_eq_getElem _ _ (by rw [List.length_range']; omega),
        List.getElem_range']
      omega
    · rw [if_neg him, List.getD_eq_default _ _ (by rw [List.length_range']; omega)]

/-- A round of `setup_freelist` puts the next blocks on the list. -/
theorem perm_round {first next : ℕ} (hle : first ≤ next) {L : List ℕ}
    (hperm : L.Perm (List.range' first (next - first))) (m : ℕ) :
    ((List.range' (next + 1) m).reverse ++ next :: L).Perm
      (List.range' first (next + 1 + m - first)) := by
  have hsplit : List.range' first (next + 1 + m - first) =
      List.range' first (next - first) ++ List.range' next (m + 1) := by
    obtain ⟨k, rfl⟩ := Nat.exists_eq_add_of_le hle
    rw [show first + k - first = k by omega, List.range'_append_1]
    congr 1
    omega
  have hleft : (List.range' (next + 1) m).reverse ++ next :: L =
      (List.range' next (m + 1)).reverse ++ L := by
    rw [List.range'_succ, List.reverse_cons, List.append_assoc, List.singleton_append]
  rw [hsplit, hleft]
  exact ((List.reverse_perm _).append_right L).trans
    (List.perm_append_comm.trans (hperm.append_right _))

section Setup

variable {σ : Type} {below : InodeStore σ} {belowIno N : ℕ} {Fails : String → Prop}
  {A : ArrayStore below belowIno N Fails}

/-- **`setup_freelist` puts each block on the list once.**  The list has the blocks from `first` on,
below `next`. -/
theorem setupFreelistLoop_freeList {nblocks first : ℕ} (hN : nblocks ≤ N) (hlt : nblocks < 2 ^ 32)
    (hfirst : 0 < first) :
    ∀ fuel D fl next L, FreeList D fl L → fl < 2 ^ 32 → L.Perm (List.range' first (next - first)) →
      first ≤ next → next ≤ nblocks → nblocks ≤ fuel + next →
      Triple (A.HoldsOff ∅ D) (setupFreelistLoop below belowIno nblocks fuel fl next)
        (fun fl' s => ∃ D', (fl' < 2 ^ 32 ∧ ∃ L', FreeList D' fl' L' ∧
          L'.Perm (List.range' first (nblocks - first))) ∧ A.HoldsOff ∅ D' s)
        (fun e _ => Fails e) := by
  intro fuel
  induction fuel with
  | zero =>
      intro D fl next L hL hfl hperm hle hnext hfuel
      obtain rfl : next = nblocks := by omega
      rw [setupFreelistLoop]
      exact Triple.pure fun s hs => ⟨D, ⟨hfl, L, hL, hperm⟩, hs⟩
  | succ fuel ih =>
      intro D fl next L hL hfl hperm hle hnext hfuel
      rw [setupFreelistLoop]
      by_cases hc : next < nblocks
      · rw [if_pos hc]
        obtain ⟨data, m, heq, hmN, hm, h0, hdata⟩ := freelistData_spec hlt hfl hc
        rw [heq]
        have hmem : ∀ x ∈ L, x < next := by
          intro x hx
          have hx' := List.mem_range'_1.1 (hperm.mem_iff.1 hx)
          omega
        have hDn : update D next data next = data := update_self _ _ _
        have hnew : FreeList (update D next data) next
            ((List.range' (next + 1) m).reverse ++ next :: L) := by
          refine .cons (by omega) ?_ ?_
          · rw [hDn]
            exact refs_of_freelistData hm hdata
          rw [hDn, h0]
          exact hL.congr fun x hx => update_of_ne (Nat.ne_of_lt (hmem x hx)) _ _
        refine Triple.bind ((writeOrPanic_update D next data _ (by omega)).conseq (fun _ hs => hs)
          (fun _ _ hq => hq) fun _ _ he => he.1) fun _ => ?_
        exact ih _ next (next + 1 + m) _ hnew (by omega) (perm_round hle hperm m) (by omega) hmN
          (by omega)
      · rw [if_neg hc]
        obtain rfl : next = nblocks := by omega
        exact Triple.pure fun s hs => ⟨D, ⟨hfl, L, hL, hperm⟩, hs⟩

/-- **`setup_freelist`**, from an empty list. -/
theorem setupFreelist_freeList {nblocks first : ℕ} (hN : nblocks ≤ N) (hlt : nblocks < 2 ^ 32)
    (hfirst : 0 < first) (hle : first ≤ nblocks) (D : Disk) :
    Triple (A.HoldsOff ∅ D) (setupFreelist below belowIno first nblocks)
      (fun fl s => ∃ D', (fl < 2 ^ 32 ∧ ∃ L, FreeList D' fl L ∧
        L.Perm (List.range' first (nblocks - first))) ∧ A.HoldsOff ∅ D' s)
      (fun e _ => Fails e) := by
  refine setupFreelistLoop_freeList hN hlt hfirst nblocks D 0 first [] .nil
    (by decide) ?_ le_rfl hle (by omega)
  rw [Nat.sub_self]
  exact List.Perm.refl _

end Setup

/-! ### Runs of the allocator -/

/-- **Runs of the allocator**: calls of `treedisk_alloc_block`, each with the snapshot that the
previous one has left or with one that has been read again, while the blocks that have been handed
out are overwritten.  The list has the blocks that have been handed out. -/
inductive AllocRun {σ : Type} (ts : Treedisk σ) (s₀ : σ) (snap₀ : Snapshot) :
    σ → Snapshot → List ℕ → Prop
  | start : AllocRun ts s₀ snap₀ s₀ snap₀ []
  | alloc {s s' : σ} {snap snap' : Snapshot} {out : List ℕ} {b : ℕ}
      (h : AllocRun ts s₀ snap₀ s snap out)
      (hrun : treediskAllocBlock ts snap s = .ok (b, snap') s') :
      AllocRun ts s₀ snap₀ s' snap' (out ++ [b])
  | fresh {s : σ} {snap snap' : Snapshot} {out : List ℕ} (h : AllocRun ts s₀ snap₀ s snap out)
      (ino : ℕ) (hsnap : treediskGetSnapshot ts ino s = some snap') :
      AllocRun ts s₀ snap₀ s snap' out
  | overwrite {s s' : σ} {snap : Snapshot} {out : List ℕ} (h : AllocRun ts s₀ snap₀ s snap out)
      {b : ℕ} (hb : b ∈ out) (blk : Block) {r : ℤ}
      (hwrite : ts.below.write ts.belowIno b blk s = .ok r s') : AllocRun ts s₀ snap₀ s' snap out

section Runs

variable {σ : Type} {below : InodeStore σ} {belowIno N : ℕ}
  {A : ArrayStore below belowIno N fun _ => False} {first nblocks : ℕ}

/-- The blocks that have been handed out and those on the free list are all the blocks, and the
snapshot is up to date. -/
structure AllocInv (A : ArrayStore below belowIno N fun _ => False) (first nblocks : ℕ) (s : σ)
    (snap : Snapshot) (out : List ℕ) : Prop where
  inv : A.Inv s
  super : snap.superblock = A.view s 0
  list : ∃ L, FreeList (A.view s) ((A.view s) 0).freeList L ∧
    (out ++ L).Perm (List.range' first (nblocks - first))

theorem FreeList.head_mem {d : Disk} {b : ℕ} {L : List ℕ} (h : FreeList d b L) (hb : b ≠ 0) :
    b ∈ L := by
  cases h with
  | nil => exact absurd rfl hb
  | cons => exact List.mem_append_right _ List.mem_cons_self

/-- What is known of the two lists. -/
theorem AllocInv.lists (hfirst : 0 < first) {out L : List ℕ}
    (hperm : (out ++ L).Perm (List.range' first (nblocks - first))) :
    (out ++ L).Nodup ∧ (∀ x ∈ out ++ L, first ≤ x ∧ x < nblocks) ∧ 0 ∉ out ++ L := by
  have hmem : ∀ x ∈ out ++ L, first ≤ x ∧ x < nblocks := by
    intro x hx
    have hx' := List.mem_range'_1.1 (hperm.mem_iff.1 hx)
    omega
  refine ⟨hperm.nodup_iff.2 List.nodup_range', hmem, fun h0 => ?_⟩
  have := (hmem 0 h0).1
  omega

/-- **A call of the allocator** hands out a block that was on the free list, or panics if there is
none. -/
theorem AllocInv.alloc (hfirst : 0 < first) (hN : nblocks ≤ N) (hN0 : 0 < N) {s : σ}
    {snap : Snapshot} {out : List ℕ} (h : AllocInv A first nblocks s snap out) :
    (out.length < nblocks - first ∧ ∃ b snap' s',
      treediskAllocBlock ⟨below, belowIno⟩ snap s = .ok (b, snap') s' ∧
        AllocInv A first nblocks s' snap' (out ++ [b])) ∨
      (out.length = nblocks - first ∧
        treediskAllocBlock ⟨below, belowIno⟩ snap s = .error storeFull s) := by
  obtain ⟨L, hL, hperm⟩ := h.list
  obtain ⟨hnd, hmem, h0⟩ := AllocInv.lists hfirst hperm
  have hlength := hperm.length_eq
  rw [List.length_append, List.length_range'] at hlength
  cases L with
  | nil =>
      refine Or.inr ⟨by simpa using hlength, ?_⟩
      rw [treediskAllocBlock, h.super, hL.eq_zero]
      rfl
  | cons a L =>
      rw [List.length_cons] at hlength
      obtain ⟨hne, hno, hlist⟩ := hL.alloc (List.nodup_append.1 hnd).2.1
        fun hz => h0 (List.mem_append_right _ hz)
      have hhead : ((A.view s) 0).freeList < N := by
        have := (hmem _ (List.mem_append_right _ (hL.head_mem hne))).2
        omega
      obtain ⟨⟨b, snap'⟩, s', hrun, ⟨-, heq⟩, hholds⟩ :=
        (treediskAllocBlock_spec hN0 hhead snap h.super).total (A.holdsOff_view h.inv) (by
          rintro e s' - ⟨⟨-, hzero⟩ | hfalse, -⟩
          · exact hne hzero
          · exact hfalse)
      obtain ⟨rfl, rfl⟩ := Prod.mk.inj heq
      refine Or.inl ⟨by omega, _, _, s', hrun, hholds.1, ?_, L, ?_, ?_⟩
      · rw [hholds.view_eq]
      · rw [hholds.view_eq]
        exact hlist
      · rw [hno, List.append_assoc, List.singleton_append]
        exact hperm

/-- Blocks that have been handed out can be overwritten. -/
theorem AllocInv.overwrite (hfirst : 0 < first) (hN : nblocks ≤ N) {s s' : σ} {snap : Snapshot}
    {out : List ℕ} (h : AllocInv A first nblocks s snap out) {b : ℕ} (hb : b ∈ out) {blk : Block}
    {r : ℤ} (hwrite : below.write belowIno b blk s = .ok r s') :
    AllocInv A first nblocks s' snap out := by
  obtain ⟨L, hL, hperm⟩ := h.list
  obtain ⟨hnd, hmem, h0⟩ := AllocInv.lists hfirst hperm
  have hb' := hmem b (List.mem_append_left _ hb)
  have hspec := A.write_spec (A.view s) b blk (by omega) s ⟨h.inv, rfl⟩
  rw [hwrite] at hspec
  obtain ⟨-, hinv, hview⟩ := hspec
  have hsuper : A.view s' 0 = A.view s 0 := by
    rw [hview, update_of_ne (by omega)]
  refine ⟨hinv, h.super.trans hsuper.symm, L, ?_, hperm⟩
  rw [hsuper]
  refine hL.congr fun x hx => ?_
  have hne : x ≠ b := fun he => (List.nodup_append.1 hnd).2.2 b hb x hx he.symm
  rw [hview, update_of_ne hne]

/-- A snapshot has the superblock that is on the disk. -/
theorem read_of_treediskGetSnapshot {ts : Treedisk σ} {ino : ℕ} {s : σ} {snap : Snapshot}
    (h : treediskGetSnapshot ts ino s = some snap) :
    ts.below.read ts.belowIno 0 s = some snap.superblock := by
  rw [treediskGetSnapshot] at h
  cases hread : ts.below.read ts.belowIno 0 s with
  | none =>
      rw [hread] at h
      exact absurd h (by simp)
  | some superblock =>
      simp only [hread] at h
      split at h
      · exact absurd h (by simp)
      · split at h
        · exact absurd h (by simp)
        · rw [← Option.some.inj h]

/-- **The invariant holds in every state of a run.** -/
theorem AllocRun.inv (hfirst : 0 < first) (hN : nblocks ≤ N) (hN0 : 0 < N) {s₀ s : σ}
    {snap₀ snap : Snapshot} {out : List ℕ} (h₀ : AllocInv A first nblocks s₀ snap₀ [])
    (h : AllocRun ⟨below, belowIno⟩ s₀ snap₀ s snap out) : AllocInv A first nblocks s snap out := by
  induction h with
  | start => exact h₀
  | alloc _ hrun ih =>
      rcases ih.alloc hfirst hN hN0 with ⟨-, b, snap', s', hrun', hinv⟩ | ⟨-, hfail⟩
      · rw [hrun] at hrun'
        obtain ⟨hpair, rfl⟩ := EStateM.Result.ok.inj hrun'
        obtain ⟨rfl, rfl⟩ := Prod.mk.inj hpair
        exact hinv
      · rw [hrun] at hfail
        exact absurd hfail (by simp)
  | fresh _ ino hsnap ih =>
      have hread := read_of_treediskGetSnapshot hsnap
      rw [A.read_eq _ 0 ih.inv hN0] at hread
      exact ⟨ih.inv, (Option.some.inj hread).symm, ih.list⟩
  | overwrite _ hb blk hwrite ih => exact ih.overwrite hfirst hN hb hwrite

end Runs

/-- **The allocator hands out every block exactly once, and then panics.**  On a store of at least
`nblocks` blocks that does not fail, `setup_freelist(below, ino, next_free, nblocks)` returns, and
after its result has been stored in the superblock, in every run of the allocator the blocks handed
out are distinct and between `next_free` and `nblocks`; the next call succeeds as long as fewer than
`nblocks - next_free` have been handed out; and after that many, all of them have been, and the next
call panics. -/
theorem alloc_exactly_once {σ : Type} {below : InodeStore σ} {belowIno N : ℕ}
    (A : ArrayStore below belowIno N fun _ => False) (nextFree nblocks : ℕ) (h1 : 1 ≤ nextFree)
    (hle : nextFree ≤ nblocks) (hN : nblocks ≤ N) (s : σ) (hs : A.Inv s) (superblock : Block) :
    ∃ fl s₁ s₂, setupFreelist below belowIno nextFree nblocks s = .ok fl s₁ ∧
      below.write belowIno 0 (superblock.setWord 1 fl) s₁ = .ok 0 s₂ ∧
      ∀ snap, snap.superblock = superblock.setWord 1 fl → ∀ s' snap' out,
        AllocRun ⟨below, belowIno⟩ s₂ snap s' snap' out →
        out.Nodup ∧ (∀ b ∈ out, nextFree ≤ b ∧ b < nblocks) ∧ out.length ≤ nblocks - nextFree ∧
        (out.length < nblocks - nextFree → ∃ b snap'' s'',
          treediskAllocBlock ⟨below, belowIno⟩ snap' s' = .ok (b, snap'') s'') ∧
        (out.length = nblocks - nextFree → (∀ b, nextFree ≤ b → b < nblocks → b ∈ out) ∧
          treediskAllocBlock ⟨below, belowIno⟩ snap' s' = .error storeFull s') := by
  have hmax : N < 2 ^ 32 := by
    have hsize := A.getsize_eq s hs
    have := Int.emod_lt_of_pos (below.getsize belowIno s) (show (0 : ℤ) < 2 ^ 32 by decide)
    omega
  -- the list is built, and the superblock refers to it
  obtain ⟨fl, s₁, hsetup, D, ⟨hfl, L, hL, hperm⟩, hD⟩ :=
    (setupFreelist_freeList (A := A) hN (by omega) h1 hle (A.view s)).total (A.holdsOff_view hs)
      fun _ _ _ hf => hf
  have h0L : ∀ x ∈ L, x ≠ 0 := by
    intro x hx
    have := List.mem_range'_1.1 (hperm.mem_iff.1 hx)
    omega
  obtain ⟨r, s₂, hwrite, rfl, hholds⟩ :=
    (A.write_holdsOff ∅ D 0 (superblock.setWord 1 fl) (by omega)).total hD fun _ _ _ hf => hf.1
  have hview : A.view s₂ = update D 0 (superblock.setWord 1 fl) :=
    (hholds.mono (by simp)).view_eq
  refine ⟨fl, s₁, s₂, hsetup, hwrite, fun snap hsnap s' snap' out hrun => ?_⟩
  have hstart : AllocInv A nextFree nblocks s₂ snap [] := by
    refine ⟨hholds.1, ?_, L, ?_, hperm⟩
    · rw [hview, hsnap, update_self]
    · rw [hview, update_self, Block.freeList, Block.word_setWord_self _ _ hfl]
      exact hL.congr fun x hx => update_of_ne (h0L x hx) _ _
  have hinv := hrun.inv h1 hN (by omega) hstart
  obtain ⟨L', -, hperm'⟩ := hinv.list
  obtain ⟨hnd, hmem, -⟩ := AllocInv.lists h1 hperm'
  have hlength := hperm'.length_eq
  rw [List.length_append, List.length_range'] at hlength
  refine ⟨(List.nodup_append.1 hnd).1, fun b hb => hmem b (List.mem_append_left _ hb), by omega,
    fun hlt => ?_, fun heq => ⟨fun b hb hb' => ?_, ?_⟩⟩
  · rcases hinv.alloc h1 hN (by omega) with ⟨-, b, snap'', s'', hok, -⟩ | ⟨heq, -⟩
    · exact ⟨b, snap'', s'', hok⟩
    · omega
  · obtain rfl : L' = [] := List.length_eq_zero_iff.1 (by omega)
    rw [List.append_nil] at hperm'
    exact hperm'.mem_iff.2 (List.mem_range'_1.2 ⟨hb, by omega⟩)
  · rcases hinv.alloc h1 hN (by omega) with ⟨hlt, -⟩ | ⟨-, hfull⟩
    · omega
    · exact hfull

/-- On a RAM disk of 300 blocks, the blocks from 42 on. -/
theorem alloc_exactly_once_ramdisk :
    ∃ fl s₁ s₂, setupFreelist (ramdisk 300) 0 42 300 (fun _ => nullBlock) = .ok fl s₁ ∧
      (ramdisk 300).write 0 0 (nullBlock.setWord 1 fl) s₁ = .ok 0 s₂ ∧
      ∃ b snap s, treediskAllocBlock ⟨ramdisk 300, 0⟩ ⟨nullBlock.setWord 1 fl, nullBlock, 1, 0⟩ s₂ =
        .ok (b, snap) s := by
  obtain ⟨fl, s₁, s₂, hsetup, hwrite, hruns⟩ := alloc_exactly_once
    (ramdiskArray (by decide) 0) 42 300 (by decide) (by decide) le_rfl (fun _ => nullBlock) trivial
    nullBlock
  obtain ⟨-, -, -, hnext, -⟩ := hruns ⟨nullBlock.setWord 1 fl, nullBlock, 1, 0⟩ rfl _ _ _ .start
  exact ⟨fl, s₁, s₂, hsetup, hwrite, hnext (by decide)⟩

end Egos
