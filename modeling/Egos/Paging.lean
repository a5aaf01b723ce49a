/-
**The paging device** (`earth/dev_page.c`).

There are 256 physical frames.  On QEMU they are an array in memory.  The Arty board has memory for
28 of them: these are a cache, and all 256 frames have a place at the beginning of the disk.  A
frame that is needed and not cached takes the slot of another one, chosen at random, which is
written to the disk.

The memory is given by its pages, and a page as the 8 disk blocks it consists of.  The outcomes of
`rand` are a stream, so that a statement about all streams is a statement about all choices.

Main definitions:

* `Egos.Paging` — the device, the memory and the disk;
* `Egos.Paging.pagingRead`, `Egos.Paging.pagingWrite`, `Egos.Paging.pagingInvalidateCache` — its
  interface;
* `Egos.Paging.HasFrame` — the contents of a frame, wherever they are;
* `Egos.Paging.Ok` — the invariant of the device.

Main results:

* `Egos.Paging.pagingRead_spec`, `Egos.Paging.pagingWrite_spec`, `Egos.Paging.invalidate_spec`,
  `Egos.Paging.store_spec` — **what each operation does to the contents of the frames**.
-/

import Egos.Block
import Egos.WriteBack
import Mathlib.Data.Fintype.Basic
import Mathlib.Data.Int.Init

set_option autoImplicit false

namespace Egos

open Function (update update_eq_self update_idem update_of_ne update_self)

-- A shortcut to Lean's own instance, as in `Block`.
instance neZero_256 : NeZero 256 := inferInstance

/-- A page of `PAGE_SIZE` = 4096 bytes, as `NBLOCKS_PER_PAGE` = 8 blocks. -/
abbrev Page : Type := Fin 8 → Block

/-- `enum platform` of `egos.h`. -/
inductive Platform
  | arty
  | qemuSifive
  | qemuLatest
  deriving DecidableEq, Repr

/-- The conversion of an `int` to `uint`. -/
def toUint (z : ℤ) : ℕ := (z % 2 ^ 32).toNat

/-- The device, and what it uses of the machine. -/
structure Paging where
  platform : Platform
  /-- The frame in each slot of the cache, or `-1`. -/
  cacheSlots : Fin 28 → ℤ
  /-- The pages of the memory, by page number. -/
  mem : ℕ → Page
  disk : ℕ → Block
  /-- What `rand` will return. -/
  rand : ℕ → ℕ
  /-- The first block of each `disk_write` that the device has issued, the last one first. -/
  written : List ℕ

namespace Paging

/-! ### The device -/

/-- The page at `pages_start`, that is, `FRAME_CACHE_START`. -/
def pagesStart : ℕ := 0x80004

/-- The page at the address `page_no << 12`. -/
def pageAt (pageNo : ℕ) : ℕ := pageNo % 2 ^ 20

/-- `frame_id * NBLOCKS_PER_PAGE`, where the macro is not parenthesised. -/
def blockOf (frameId : ℕ) : ℕ := frameId * 4096 % 2 ^ 32 / 512

/-- Copy a page into the memory. -/
def setPage (s : Paging) (a : ℕ) (p : Page) : Paging := { s with mem := update s.mem a p }

/-- `earth->disk_write` of the 8 blocks of a page. -/
def diskWrite (s : Paging) (b : ℕ) (p : Page) : Paging :=
  { s with
    disk := fun n => if h : b ≤ n ∧ n < b + 8 then p ⟨n - b, by omega⟩ else s.disk n
    written := b :: s.written }

/-- `earth->disk_read` of the 8 blocks of a page. -/
def diskRead (s : Paging) (b : ℕ) : Page := fun j => s.disk (b + j)

/-- The slot that `cache_eviction` will choose. -/
def evictIdx (s : Paging) : Fin 28 := Fin.ofNat 28 (s.rand 0)

/-- `cache_eviction` -/
def cacheEviction (s : Paging) : Fin 28 × Paging :=
  let idx := s.evictIdx
  let s := { s with rand := fun n => s.rand (n + 1) }
  let frameId := toUint (s.cacheSlots idx)
  (idx, s.diskWrite (blockOf frameId) (s.mem (pagesStart + idx)))

/-- Assign to `cache_slots[idx]`. -/
def setSlot (s : Paging) (idx : Fin 28) (frameId : ℕ) : Paging :=
  { s with cacheSlots := update s.cacheSlots idx (Int.bmod frameId (2 ^ 32)) }

/-- A machine that was just switched on. -/
def board (platform : Platform) (rand : ℕ → ℕ) : Paging :=
  { platform := platform
    cacheSlots := fun _ => 0
    mem := fun _ _ => nullBlock
    disk := fun _ => nullBlock
    rand := rand
    written := [] }

/-- `paging_init` -/
def pagingInit (s : Paging) : Paging := { s with cacheSlots := fun _ => -1 }

/-- `paging_invalidate_cache` -/
def pagingInvalidateCache (s : Paging) (frameId : ℕ) : Paging :=
  { s with cacheSlots := fun j => if toUint (s.cacheSlots j) = frameId then -1 else s.cacheSlots j }

/-- The slot of a frame. -/
def findSlot (s : Paging) (frameId : ℕ) : Option (Fin 28) :=
  (List.finRange 28).find? fun i => toUint (s.cacheSlots i) = frameId

/-- `paging_write` -/
def pagingWrite (s : Paging) (frameId pageNo : ℕ) : Paging :=
  let src := s.mem (pageAt pageNo)
  if s.platform ≠ .arty then s.setPage (pagesStart + frameId) src
  else
    match s.findSlot frameId with
    | some i => s.setPage (pagesStart + i) src
    | none =>
        let (freeIdx, s) := s.cacheEviction
        (s.setSlot freeIdx frameId).setPage (pagesStart + freeIdx) src

/-- The loop of `paging_read`: the slot of the frame, or else the first free slot. -/
def readLoop (s : Paging) (frameId : ℕ) (freeIdx : Option (Fin 28)) :
    List (Fin 28) → Fin 28 ⊕ Option (Fin 28)
  | [] => .inr freeIdx
  | i :: is =>
      let freeIdx := if s.cacheSlots i = -1 ∧ freeIdx = none then some i else freeIdx
      if toUint (s.cacheSlots i) = frameId then .inl i else s.readLoop frameId freeIdx is

/-- `paging_read`, which returns the page where the frame is. -/
def pagingRead (s : Paging) (frameId : ℕ) (allocOnly : Bool) : ℕ × Paging :=
  if s.platform ≠ .arty then (pagesStart + frameId, s)
  else
    match s.readLoop frameId none (List.finRange 28) with
    | .inl i => (pagesStart + i, s)
    | .inr freeIdx =>
        let (freeIdx, s) := match freeIdx with
          | some i => (i, s)
          | none => s.cacheEviction
        let s := s.setSlot freeIdx frameId
        let s := if allocOnly then s
          else s.setPage (pagesStart + freeIdx) (s.diskRead (blockOf frameId))
        (pagesStart + freeIdx, s)

/-! ### The device as a cache -/

/-- The frame in a slot. -/
def frameIn (z : ℤ) : Option (Fin 256) :=
  if h : 0 ≤ z ∧ z < 256 then some ⟨z.toNat, by omega⟩ else none

/-- The memory and the disk of the Arty board as a cache of frames. -/
def cache (s : Paging) : WriteBack.Cache (Fin 28) (Fin 256) Page :=
  { tag := fun i => frameIn (s.cacheSlots i)
    line := fun i => s.mem (pagesStart + i)
    back := fun f => s.diskRead (blockOf f) }

/-- **The contents of a frame**, wherever they are. -/
def HasFrame (s : Paging) (f : Fin 256) (p : Page) : Prop :=
  if s.platform = .arty then s.cache.Holds f p else s.mem (pagesStart + f) = p

/-- The frame is in memory, at the given page. -/
def FrameAt (s : Paging) (f : Fin 256) (a : ℕ) : Prop :=
  if s.platform = .arty then ∃ i : Fin 28, s.cache.tag i = some f ∧ a = pagesStart + i
  else a = pagesStart + f

/-- **The invariant of the device.** -/
structure Ok (s : Paging) : Prop where
  /-- A slot is empty or holds a frame. -/
  slot : ∀ i, s.cacheSlots i = -1 ∨ (0 ≤ s.cacheSlots i ∧ s.cacheSlots i < 256)
  /-- No frame is in two slots. -/
  valid : s.cache.Valid

/-- The pages of the memory that are not frames. -/
def Outside (a : ℕ) : Prop := a < pagesStart ∨ pagesStart + 256 ≤ a

instance (a : ℕ) : Decidable (Outside a) := inferInstanceAs (Decidable (_ ∨ _))

variable {s s' : Paging} {f g : Fin 256} {a pageNo : ℕ} {p q : Page}

theorem frameIn_eq_some {z : ℤ} : frameIn z = some f ↔ z = f := by
  unfold frameIn
  constructor
  · intro h
    split at h
    · have := congrArg Fin.val (Option.some.inj h)
      simp only at this
      omega
    · simp at h
  · rintro rfl
    have hf := f.isLt
    rw [dif_pos ⟨by omega, by omega⟩]
    simp

@[simp] theorem frameIn_neg_one : frameIn (-1) = none := rfl

/-- The comparison of a slot with the number of a frame, which is unsigned. -/
theorem Ok.toUint_eq (hs : s.Ok) (i : Fin 28) :
    toUint (s.cacheSlots i) = f ↔ s.cache.tag i = some f := by
  have hf := f.isLt
  change _ ↔ frameIn (s.cacheSlots i) = some f
  rw [frameIn_eq_some, toUint]
  rcases hs.slot i with h | ⟨h₀, h₁⟩
  · rw [h]
    omega
  · omega

theorem blockOf_frame (f : Fin 256) : blockOf f = 8 * f := by
  have hf := f.isLt
  simp only [blockOf]
  omega

/-- Evicting an empty slot writes far away. -/
theorem blockOf_empty : blockOf (toUint (-1)) = 8388600 := by decide

theorem not_outside_slot (i : Fin 28) : ¬ Outside (pagesStart + i) := by
  simp only [Outside]
  omega

theorem not_outside_frame (f : Fin 256) : ¬ Outside (pagesStart + f) := by
  simp only [Outside]
  omega

/-! ### What the steps of the device are for the cache -/

theorem cache_setPage_slot (s : Paging) (i : Fin 28) (p : Page) :
    (s.setPage (pagesStart + i) p).cache = s.cache.setLine i p := by
  simp only [cache, setPage, WriteBack.Cache.setLine, WriteBack.Cache.mk.injEq, true_and]
  refine ⟨?_, rfl⟩
  funext j
  by_cases hj : j = i
  · subst hj
    simp
  · have hne : pagesStart + j.val ≠ pagesStart + i.val := by
      intro h
      exact hj (Fin.ext (by omega))
    rw [update_of_ne hne, update_of_ne hj]

theorem cache_setPage_outside (s : Paging) (ha : Outside a) (p : Page) :
    (s.setPage a p).cache = s.cache := by
  simp only [cache, setPage, WriteBack.Cache.mk.injEq, true_and]
  refine ⟨?_, rfl⟩
  funext j
  refine update_of_ne ?_ _ _
  rintro rfl
  exact not_outside_slot j ha

theorem slot_bmod (f : Fin 256) : Int.bmod (f : ℕ) (2 ^ 32) = (f : ℕ) := by
  have hf := f.isLt
  rw [Int.bmod_eq_of_le] <;> omega

theorem cache_setSlot (s : Paging) (i : Fin 28) (f : Fin 256) :
    (s.setSlot i f).cache = s.cache.install i f (s.mem (pagesStart + i)) := by
  simp only [cache, setSlot, WriteBack.Cache.install, WriteBack.Cache.mk.injEq]
  refine ⟨?_, ?_, rfl⟩
  · funext j
    by_cases hj : j = i
    · subst hj
      rw [update_self, update_self, slot_bmod, frameIn_eq_some]
    · rw [update_of_ne hj, update_of_ne hj]
  · exact (update_eq_self i fun j : Fin 28 => s.mem (pagesStart + j)).symm

theorem cache_setSlot_setPage (s : Paging) (i : Fin 28) (f : Fin 256) (p : Page) :
    ((s.setSlot i f).setPage (pagesStart + i) p).cache = s.cache.install i f p := by
  rw [cache_setPage_slot, cache_setSlot]
  simp only [WriteBack.Cache.setLine, WriteBack.Cache.install, update_idem]

/-- What a write to the disk does to the places of the frames. -/
theorem diskRead_diskWrite (s : Paging) (b : ℕ) (p : Page) (f : Fin 256) (hb : b % 8 = 0) :
    (s.diskWrite b p).diskRead (blockOf f) =
      if blockOf f = b then p else s.diskRead (blockOf f) := by
  rw [blockOf_frame]
  funext j
  have hj := j.isLt
  simp only [diskRead, diskWrite]
  by_cases h : 8 * f.val = b
  · rw [if_pos h, dif_pos (by omega)]
    congr 1
    exact Fin.ext (by simp only; omega)
  · rw [if_neg h, dif_neg (by omega)]
    rfl

/-- Eviction writes the line back. -/
theorem Ok.cache_cacheEviction (hs : s.Ok) :
    s.cacheEviction.2.cache = s.cache.flush s.evictIdx := by
  have hline : ∀ f : Fin 256, s.cacheEviction.2.cache.back f =
      if blockOf f = blockOf (toUint (s.cacheSlots s.evictIdx)) then
        s.mem (pagesStart + s.evictIdx) else s.diskRead (blockOf f) := by
    intro f
    refine diskRead_diskWrite _ _ _ f ?_
    rcases hs.slot s.evictIdx with h | ⟨h₀, h₁⟩
    · rw [show s.cacheSlots s.evictIdx = -1 from h, blockOf_empty]
    · simp only [blockOf, toUint]
      omega
  have hback : s.cacheEviction.2.cache.back = (s.cache.flush s.evictIdx).back := by
    funext f
    rw [hline f]
    rcases hs.slot s.evictIdx with h | ⟨h₀, h₁⟩
    · have htag : s.cache.tag s.evictIdx = none := by
        change frameIn (s.cacheSlots s.evictIdx) = none
        rw [h, frameIn_neg_one]
      have hf := f.isLt
      rw [h, blockOf_empty, blockOf_frame, if_neg (by omega), WriteBack.Cache.flush_of_none htag,
        ← blockOf_frame]
      rfl
    · by_cases htag : s.cache.tag s.evictIdx = some f
      · rw [WriteBack.Cache.flush_back_self htag, (hs.toUint_eq _).2 htag, if_pos rfl]
        rfl
      · rw [WriteBack.Cache.flush_back_of_ne htag, if_neg]
        · rfl
        · intro hblock
          refine htag (frameIn_eq_some.2 ?_)
          simp only [blockOf, toUint] at hblock
          omega
  have htag : s.cacheEviction.2.cache.tag = (s.cache.flush s.evictIdx).tag := by
    rw [WriteBack.Cache.flush_tag]
    rfl
  have hlines : s.cacheEviction.2.cache.line = (s.cache.flush s.evictIdx).line := by
    rw [WriteBack.Cache.flush_line]
    rfl
  exact WriteBack.Cache.ext htag hlines hback

/-- Forgetting a frame. -/
theorem Ok.cache_invalidate (hs : s.Ok) (f : Fin 256) :
    (s.pagingInvalidateCache f).cache = s.cache.drop f := by
  refine WriteBack.Cache.ext (funext fun j => ?_) rfl rfl
  change frameIn (if toUint (s.cacheSlots j) = f then -1 else s.cacheSlots j) =
    if s.cache.tag j = some f then none else s.cache.tag j
  by_cases hj : toUint (s.cacheSlots j) = f
  · rw [if_pos hj, if_pos ((hs.toUint_eq j).1 hj), frameIn_neg_one]
  · rw [if_neg hj, if_neg]
    · rfl
    · intro htag
      exact hj ((hs.toUint_eq j).2 htag)

/-! ### The searches for a slot -/

theorem Ok.findSlot_some (hs : s.Ok) {i : Fin 28} (h : s.findSlot f = some i) :
    s.cache.tag i = some f := by
  refine (hs.toUint_eq i).1 ?_
  simpa [findSlot] using List.find?_some h

theorem Ok.findSlot_none (hs : s.Ok) (h : s.findSlot f = none) (i : Fin 28) :
    s.cache.tag i ≠ some f := by
  intro htag
  have := List.find?_eq_none.1 h i (List.mem_finRange i)
  simp only [decide_eq_true_eq] at this
  exact this ((hs.toUint_eq i).2 htag)

/-- What the loop of `paging_read` finds. -/
theorem readLoop_spec (s : Paging) (frameId : ℕ) (l : List (Fin 28)) :
    ∀ freeIdx : Option (Fin 28), (∀ i, freeIdx = some i → s.cacheSlots i = -1) →
      match s.readLoop frameId freeIdx l with
      | .inl i => toUint (s.cacheSlots i) = frameId
      | .inr r => (∀ i ∈ l, toUint (s.cacheSlots i) ≠ frameId) ∧
          (∀ i, r = some i → s.cacheSlots i = -1) ∧
          (r = none → freeIdx = none ∧ ∀ i ∈ l, s.cacheSlots i ≠ -1) := by
  induction l with
  | nil =>
      intro freeIdx hfree
      simp only [readLoop]
      exact ⟨by simp, hfree, fun h => ⟨h, by simp⟩⟩
  | cons i is ih =>
      intro freeIdx hfree
      simp only [readLoop]
      by_cases hi : toUint (s.cacheSlots i) = frameId
      · rw [if_pos hi]
        exact hi
      · rw [if_neg hi]
        have hfree' : ∀ j, (if s.cacheSlots i = -1 ∧ freeIdx = none then some i else freeIdx) =
            some j → s.cacheSlots j = -1 := by
          intro j hj
          split at hj
          · rename_i hc
            rw [← Option.some.inj hj]
            exact hc.1
          · exact hfree j hj
        have hrest := ih _ hfree'
        split at hrest
        · exact hrest
        · obtain ⟨hne, hsome, hnone⟩ := hrest
          refine ⟨?_, hsome, ?_⟩
          · intro j hj
            rcases List.mem_cons.1 hj with rfl | hj
            · exact hi
            · exact hne j hj
          · intro hr
            obtain ⟨hif, hall⟩ := hnone hr
            split at hif
            · exact absurd hif (by simp)
            · rename_i hc
              refine ⟨hif, ?_⟩
              intro j hj
              rcases List.mem_cons.1 hj with rfl | hj
              · intro hj1
                exact hc ⟨hj1, hif⟩
              · exact hall j hj

/-- The slot in which a frame is put that is not cached, and the state then: a free slot, or else
one that is evicted. -/
def Room (s : Paging) (i : Fin 28) (s₁ : Paging) : Prop :=
  (s.cacheSlots i = -1 ∧ s₁ = s) ∨
    ((∀ j, s.cacheSlots j ≠ -1) ∧ i = s.evictIdx ∧ s₁ = s.cacheEviction.2)

/-- **The cases of `paging_read`** on the Arty board. -/
theorem Ok.pagingRead_cases (hs : s.Ok) (harty : s.platform = .arty) (f : Fin 256)
    (allocOnly : Bool) :
    (∃ i, s.cache.tag i = some f ∧ s.pagingRead f allocOnly = (pagesStart + i, s)) ∨
    ((∀ i, s.cache.tag i ≠ some f) ∧ ∃ i s₁, s.Room i s₁ ∧
      s.pagingRead f allocOnly = (pagesStart + i,
        if allocOnly then s₁.setSlot i f
        else (s₁.setSlot i f).setPage (pagesStart + i) (s₁.diskRead (blockOf f)))) := by
  have hloop := readLoop_spec s f (List.finRange 28) none (by simp)
  unfold pagingRead
  rw [if_neg (by simp [harty])]
  cases hl : s.readLoop f none (List.finRange 28) with
  | inl i =>
      rw [hl] at hloop
      exact Or.inl ⟨i, (hs.toUint_eq i).1 hloop, rfl⟩
  | inr r =>
      rw [hl] at hloop
      obtain ⟨hne, hsome, hnone⟩ := hloop
      refine Or.inr ⟨?_, ?_⟩
      · intro i htag
        exact hne i (List.mem_finRange i) ((hs.toUint_eq i).2 htag)
      · cases r with
        | some i => exact ⟨i, s, Or.inl ⟨hsome i rfl, rfl⟩, rfl⟩
        | none =>
            refine ⟨s.evictIdx, s.cacheEviction.2, Or.inr ⟨?_, rfl, rfl⟩, rfl⟩
            intro j
            exact (hnone rfl).2 j (List.mem_finRange j)

/-- **The cases of `paging_write`** on the Arty board: it never looks for a free slot. -/
theorem Ok.pagingWrite_cases (hs : s.Ok) (harty : s.platform = .arty) (f : Fin 256) (pageNo : ℕ) :
    (∃ i, s.cache.tag i = some f ∧
      s.pagingWrite f pageNo = s.setPage (pagesStart + i) (s.mem (pageAt pageNo))) ∨
    ((∀ i, s.cache.tag i ≠ some f) ∧
      s.pagingWrite f pageNo = (s.cacheEviction.2.setSlot s.evictIdx f).setPage
        (pagesStart + s.evictIdx) (s.mem (pageAt pageNo))) := by
  unfold pagingWrite
  rw [if_neg (by simp [harty])]
  cases hfind : s.findSlot f with
  | some i => exact Or.inl ⟨i, hs.findSlot_some hfind, rfl⟩
  | none => exact Or.inr ⟨hs.findSlot_none hfind, rfl⟩

/-! ### What the operations do to the frames -/

/-- What an operation on the frame `f` leaves as it is. -/
structure Keeps (s : Paging) (f : Fin 256) (s' : Paging) : Prop where
  platform : s'.platform = s.platform
  mem : ∀ a, Outside a → s'.mem a = s.mem a
  frame : ∀ g ≠ f, ∀ p, s.HasFrame g p → s'.HasFrame g p

theorem hasFrame_arty (harty : s.platform = .arty) : s.HasFrame f p ↔ s.cache.Holds f p := by
  rw [HasFrame, if_pos harty]

theorem hasFrame_qemu (hqemu : s.platform ≠ .arty) :
    s.HasFrame f p ↔ s.mem (pagesStart + f) = p := by
  rw [HasFrame, if_neg hqemu]

theorem frameAt_arty (harty : s.platform = .arty) :
    s.FrameAt f a ↔ ∃ i : Fin 28, s.cache.tag i = some f ∧ a = pagesStart + i := by
  rw [FrameAt, if_pos harty]

theorem frameAt_qemu (hqemu : s.platform ≠ .arty) : s.FrameAt f a ↔ a = pagesStart + f := by
  rw [FrameAt, if_neg hqemu]

/-- The contents of a frame are determined. -/
theorem Ok.hasFrame_unique (hs : s.Ok) (h : s.HasFrame f p) (h' : s.HasFrame f q) : p = q := by
  by_cases harty : s.platform = .arty
  · rw [hasFrame_arty harty] at h h'
    exact h.unique hs.valid h'
  · rw [hasFrame_qemu harty] at h h'
    exact h.symm.trans h'

theorem exists_hasFrame (s : Paging) (f : Fin 256) : ∃ p, s.HasFrame f p := by
  by_cases harty : s.platform = .arty
  · obtain ⟨p, hp⟩ := s.cache.exists_holds f
    exact ⟨p, (hasFrame_arty harty).2 hp⟩
  · exact ⟨_, (hasFrame_qemu harty).2 rfl⟩

theorem FrameAt.hasFrame (h : s.FrameAt f a) : s.HasFrame f (s.mem a) := by
  by_cases harty : s.platform = .arty
  · obtain ⟨i, htag, rfl⟩ := (frameAt_arty harty).1 h
    exact (hasFrame_arty harty).2 (WriteBack.Cache.holds_line htag)
  · rw [(frameAt_qemu harty).1 h]
    exact (hasFrame_qemu harty).2 rfl

/-- A frame is not where the pages of the processes are. -/
theorem FrameAt.not_outside (h : s.FrameAt f a) : ¬ Outside a := by
  by_cases harty : s.platform = .arty
  · obtain ⟨i, -, rfl⟩ := (frameAt_arty harty).1 h
    exact not_outside_slot i
  · rw [(frameAt_qemu harty).1 h]
    exact not_outside_frame f

theorem Keeps.refl (s : Paging) (f : Fin 256) : s.Keeps f s :=
  ⟨rfl, fun _ _ => rfl, fun _ _ _ h => h⟩

/-- The memory outside of the frames after a copy to a slot. -/
theorem mem_setPage_slot (s : Paging) (i : Fin 28) (p : Page) (ha : Outside a) :
    (s.setPage (pagesStart + i) p).mem a = s.mem a := by
  refine update_of_ne ?_ _ _
  rintro rfl
  exact not_outside_slot i ha

/-- Putting a frame in a slot keeps the range of the slots. -/
theorem Ok.slot_setSlot (hs : s.Ok) (i : Fin 28) (f : Fin 256) (j : Fin 28) :
    update s.cacheSlots i (Int.bmod (f : ℕ) (2 ^ 32)) j = -1 ∨
      (0 ≤ update s.cacheSlots i (Int.bmod (f : ℕ) (2 ^ 32)) j ∧
        update s.cacheSlots i (Int.bmod (f : ℕ) (2 ^ 32)) j < 256) := by
  have hf := f.isLt
  by_cases hj : j = i
  · rw [hj, update_self, slot_bmod]
    right
    omega
  · rw [update_of_ne hj]
    exact hs.slot j

/-- **A frame takes a slot**, which is free or was written back: what holds afterwards. -/
theorem Ok.take (hs : s.Ok) (harty : s.platform = .arty) (hnone : ∀ i, s.cache.tag i ≠ some f)
    {i : Fin 28} (hcache : s'.cache = (s.cache.flush i).install i f p) (hplat : s'.platform = .arty)
    (hslots : s'.cacheSlots = update s.cacheSlots i (Int.bmod (f : ℕ) (2 ^ 32)))
    (hmem : ∀ a, Outside a → s'.mem a = s.mem a) :
    s'.Ok ∧ s.Keeps f s' ∧ s'.HasFrame f p ∧ s'.FrameAt f (pagesStart + i) := by
  refine ⟨⟨?_, ?_⟩, ⟨?_, hmem, ?_⟩, ?_, ?_⟩
  · intro j
    rw [hslots]
    exact hs.slot_setSlot i f j
  · rw [hcache]
    exact hs.valid.evict hnone i p
  · rw [hplat, harty]
  · intro g hg q hq
    rw [hasFrame_arty harty] at hq
    rw [hasFrame_arty hplat, hcache]
    exact hq.evict hs.valid hg i p
  · rw [hasFrame_arty hplat, hcache]
    exact WriteBack.Cache.install_holds _ i f p
  · rw [frameAt_arty hplat]
    refine ⟨i, ?_, rfl⟩
    rw [hcache]
    exact WriteBack.Cache.install_tag_self _ i f p

/-- What a room for a frame is for the cache. -/
theorem Ok.room (hs : s.Ok) {i : Fin 28} {s₁ : Paging} (h : s.Room i s₁) :
    s₁.cache = s.cache.flush i ∧ s₁.mem = s.mem ∧ s₁.platform = s.platform ∧
      s₁.cacheSlots = s.cacheSlots := by
  rcases h with ⟨hi, rfl⟩ | ⟨-, rfl, rfl⟩
  · refine ⟨(WriteBack.Cache.flush_of_none ?_).symm, rfl, rfl, rfl⟩
    change frameIn (s₁.cacheSlots i) = none
    rw [hi, frameIn_neg_one]
  · exact ⟨hs.cache_cacheEviction, rfl, rfl, rfl⟩

/-- **A store to a frame** that is in memory. -/
theorem Ok.store_spec (hs : s.Ok) (h : s.FrameAt f a) (p : Page) :
    (s.setPage a p).Ok ∧ s.Keeps f (s.setPage a p) ∧ (s.setPage a p).HasFrame f p ∧
      (s.setPage a p).FrameAt f a := by
  have hok : (s.setPage a p).Ok := ⟨hs.slot, hs.valid⟩
  have hmem : ∀ b, Outside b → (s.setPage a p).mem b = s.mem b := by
    intro b hb
    refine update_of_ne ?_ _ _
    rintro rfl
    exact h.not_outside hb
  by_cases harty : s.platform = .arty
  · have harty' : (s.setPage a p).platform = .arty := harty
    obtain ⟨i, htag, rfl⟩ := (frameAt_arty harty).1 h
    refine ⟨hok, ⟨rfl, hmem, ?_⟩, ?_, h⟩
    · intro g hg q hq
      rw [hasFrame_arty harty] at hq
      rw [hasFrame_arty harty', cache_setPage_slot]
      refine hq.setLine ?_ p
      rw [htag]
      intro he
      exact hg (Option.some.inj he).symm
    · rw [hasFrame_arty harty', cache_setPage_slot]
      exact WriteBack.Cache.setLine_holds htag p
  · have hqemu' : (s.setPage a p).platform ≠ .arty := harty
    have ha := (frameAt_qemu harty).1 h
    refine ⟨hok, ⟨rfl, hmem, ?_⟩, ?_, h⟩
    · intro g hg q hq
      rw [hasFrame_qemu harty] at hq
      rw [hasFrame_qemu hqemu', ← hq]
      refine update_of_ne ?_ _ _
      rw [ha]
      intro he
      exact hg (Fin.ext (by omega))
    · rw [hasFrame_qemu hqemu', ← ha]
      exact update_self _ _ _

/-- **`paging_write`** sets the contents of a frame. -/
theorem Ok.pagingWrite_spec (hs : s.Ok) (f : Fin 256) (pageNo : ℕ) :
    (s.pagingWrite f pageNo).Ok ∧ s.Keeps f (s.pagingWrite f pageNo) ∧
      (s.pagingWrite f pageNo).HasFrame f (s.mem (pageAt pageNo)) := by
  by_cases harty : s.platform = .arty
  · rcases hs.pagingWrite_cases harty f pageNo with ⟨i, htag, heq⟩ | ⟨hnone, heq⟩
    · rw [heq]
      obtain ⟨hok, hkeeps, hframe, -⟩ :=
        hs.store_spec ((frameAt_arty harty).2 ⟨i, htag, rfl⟩) (s.mem (pageAt pageNo))
      exact ⟨hok, hkeeps, hframe⟩
    · have hcache : (s.pagingWrite f pageNo).cache =
          (s.cache.flush s.evictIdx).install s.evictIdx f (s.mem (pageAt pageNo)) := by
        rw [heq, cache_setSlot_setPage, hs.cache_cacheEviction]
      have hmem : ∀ a, Outside a → (s.pagingWrite f pageNo).mem a = s.mem a := by
        intro a ha
        rw [heq, mem_setPage_slot _ _ _ ha]
        rfl
      obtain ⟨hok, hkeeps, hframe, -⟩ :=
        hs.take harty hnone hcache (by rw [heq]; exact harty) (by rw [heq]; rfl) hmem
      exact ⟨hok, hkeeps, hframe⟩
  · have heq : s.pagingWrite f pageNo = s.setPage (pagesStart + f) (s.mem (pageAt pageNo)) := by
      unfold pagingWrite
      rw [if_pos harty]
    rw [heq]
    obtain ⟨hok, hkeeps, hframe, -⟩ :=
      hs.store_spec ((frameAt_qemu harty).2 rfl) (s.mem (pageAt pageNo))
    exact ⟨hok, hkeeps, hframe⟩

/-- **`paging_read`** brings a frame into memory, with its contents unless it is newly allocated. -/
theorem Ok.pagingRead_spec (hs : s.Ok) (f : Fin 256) (allocOnly : Bool) :
    (s.pagingRead f allocOnly).2.Ok ∧ s.Keeps f (s.pagingRead f allocOnly).2 ∧
      (s.pagingRead f allocOnly).2.FrameAt f (s.pagingRead f allocOnly).1 ∧
      (allocOnly = false → ∀ p, s.HasFrame f p → (s.pagingRead f allocOnly).2.HasFrame f p) := by
  by_cases harty : s.platform = .arty
  · rcases hs.pagingRead_cases harty f allocOnly with ⟨i, htag, heq⟩ | ⟨hnone, i, s₁, hroom, heq⟩
    · rw [heq]
      exact ⟨hs, Keeps.refl s f, (frameAt_arty harty).2 ⟨i, htag, rfl⟩, fun _ _ h => h⟩
    · obtain ⟨hcache, hmem, hplat, hslots⟩ := hs.room hroom
      -- the store still has the contents of the frame
      have hback : s₁.diskRead (blockOf f) = s.cache.back f := by
        change s₁.cache.back f = s.cache.back f
        rw [hcache, WriteBack.Cache.flush_back_of_ne (hnone i)]
      cases allocOnly with
      | true =>
          simp only [if_true] at heq
          rw [heq]
          have hinstall := cache_setSlot s₁ i f
          rw [hcache] at hinstall
          obtain ⟨hok, hkeeps, -, hat⟩ := hs.take harty hnone hinstall (hplat.trans harty)
            (by rw [← hslots]; rfl) (fun a _ => congrFun hmem a)
          exact ⟨hok, hkeeps, hat, fun h => absurd h (by simp)⟩
      | false =>
          simp only [Bool.false_eq_true, if_false, hback] at heq
          rw [heq]
          have hinstall := cache_setSlot_setPage s₁ i f (s.cache.back f)
          rw [hcache] at hinstall
          obtain ⟨hok, hkeeps, hframe, hat⟩ := hs.take harty hnone hinstall (hplat.trans harty)
            (by rw [← hslots]; rfl)
            (fun a ha => (mem_setPage_slot _ _ _ ha).trans (congrFun hmem a))
          refine ⟨hok, hkeeps, hat, ?_⟩
          intro _ p hp
          rw [hasFrame_arty harty] at hp
          rw [← hp.of_back hnone]
          exact hframe
  · have heq : s.pagingRead f allocOnly = (pagesStart + f, s) := by
      unfold pagingRead
      rw [if_pos harty]
    rw [heq]
    exact ⟨hs, Keeps.refl s f, (frameAt_qemu harty).2 rfl, fun _ _ h => h⟩

/-- **`paging_invalidate_cache`** gives up the contents of a frame. -/
theorem Ok.invalidate_spec (hs : s.Ok) (f : Fin 256) :
    (s.pagingInvalidateCache f).Ok ∧ s.Keeps f (s.pagingInvalidateCache f) := by
  have hcache := hs.cache_invalidate f
  refine ⟨⟨?_, ?_⟩, ⟨rfl, fun _ _ => rfl, ?_⟩⟩
  · intro j
    change (if toUint (s.cacheSlots j) = f then -1 else s.cacheSlots j) = -1 ∨ _
    by_cases hj : toUint (s.cacheSlots j) = f
    · rw [if_pos hj]
      exact Or.inl rfl
    · simp only [pagingInvalidateCache, if_neg hj]
      exact hs.slot j
  · rw [hcache]
    exact hs.valid.drop f
  · intro g hg p hp
    by_cases harty : s.platform = .arty
    · have harty' : (s.pagingInvalidateCache f).platform = .arty := harty
      rw [hasFrame_arty harty] at hp
      rw [hasFrame_arty harty', hcache]
      exact hp.drop hg
    · have hqemu' : (s.pagingInvalidateCache f).platform ≠ .arty := harty
      rw [hasFrame_qemu harty] at hp
      rw [hasFrame_qemu hqemu']
      exact hp

/-- The frames do not depend on the rest of the memory. -/
theorem hasFrame_setPage (ha : Outside a) (p : Page) :
    (s.setPage a p).HasFrame f q ↔ s.HasFrame f q := by
  have hne : pagesStart + f.val ≠ a := by
    rintro rfl
    exact not_outside_frame f ha
  by_cases harty : s.platform = .arty
  · have harty' : (s.setPage a p).platform = .arty := harty
    rw [hasFrame_arty harty', hasFrame_arty harty, cache_setPage_outside s ha]
  · have hqemu' : (s.setPage a p).platform ≠ .arty := harty
    rw [hasFrame_qemu hqemu', hasFrame_qemu harty]
    simp only [setPage, update_of_ne hne]

theorem Ok.setPage (hs : s.Ok) (a : ℕ) (p : Page) : (s.setPage a p).Ok := ⟨hs.slot, hs.valid⟩

/-- The device after `paging_init`. -/
theorem pagingInit_ok (s : Paging) : s.pagingInit.Ok := by
  refine ⟨fun _ => Or.inl rfl, ?_⟩
  intro i j k hi
  exact absurd hi (by simp [cache, pagingInit])

end Paging

end Egos
