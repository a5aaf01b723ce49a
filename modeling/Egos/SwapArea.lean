/-
**Where the paging device writes on the disk.**

The first 2048 blocks of the disk are the places of the 256 frames.  On the Arty board the device
writes to the disk when it evicts a slot of its cache.  `paging_read` evicts only if all slots are
taken, but `paging_write` evicts without looking, and the slot that it picks may be empty: then the
number `-1` is taken for a frame, and eight blocks far outside of the area are overwritten.

Main definitions:

* `Egos.Mmu.InArea` — the writes to the disk during a call are those of frames in use;
* `Egos.Mmu.CallPicksTaken` — whenever a call of `paging_write` evicts a slot, the slot is not
  empty.

Main results:

* `Egos.Mmu.inArea_iff` — **the writes of a run are those of frames in use if and only if no empty
  slot is evicted.**
-/

import Egos.Mmu

set_option autoImplicit false

namespace Egos

open Function (update update_of_ne update_self)

namespace Paging

variable {s : Paging} {f : Fin 256}

/-! ### The writes of the device -/

/-- `cache_eviction`, called for a frame that is not cached, finds a slot that is not empty. -/
def PicksTaken (s : Paging) (f : Fin 256) : Prop :=
  s.findSlot f = none → s.cacheSlots s.evictIdx ≠ -1

instance (s : Paging) (f : Fin 256) : Decidable (s.PicksTaken f) :=
  inferInstanceAs (Decidable (_ → _))

/-- The first block of a frame that is cached. -/
def CachedBlock (s : Paging) (b : ℕ) : Prop := ∃ (i : Fin 28) (f : Fin 256),
  s.cache.tag i = some f ∧ b = 8 * f

/-- The block that an eviction writes to. -/
theorem Ok.evicted_block (hs : s.Ok) :
    (s.cacheSlots s.evictIdx = -1 ∧ s.cacheEviction.2.written = 8388600 :: s.written) ∨
      (s.cacheSlots s.evictIdx ≠ -1 ∧
        ∃ b, s.CachedBlock b ∧ s.cacheEviction.2.written = b :: s.written) := by
  have hwritten : s.cacheEviction.2.written =
      blockOf (toUint (s.cacheSlots s.evictIdx)) :: s.written := rfl
  rcases hs.slot s.evictIdx with h | ⟨h₀, h₁⟩
  · refine Or.inl ⟨h, ?_⟩
    rw [hwritten, h, blockOf_empty]
  · refine Or.inr ⟨by omega, _, ⟨s.evictIdx, ⟨(s.cacheSlots s.evictIdx).toNat, by omega⟩, ?_, ?_⟩,
      hwritten⟩
    · refine frameIn_eq_some.2 ?_
      simp only
      omega
    · simp only [blockOf, toUint]
      omega

/-- `paging_read` writes to the places of cached frames. -/
theorem Ok.pagingRead_written (hs : s.Ok) (harty : s.platform = .arty) (f : Fin 256)
    (allocOnly : Bool) :
    ∃ new, (s.pagingRead f allocOnly).2.written = new ++ s.written ∧
      ∀ b ∈ new, s.CachedBlock b := by
  rcases hs.pagingRead_cases harty f allocOnly with ⟨i, -, heq⟩ | ⟨-, i, s₁, hroom, heq⟩
  · rw [heq]
    exact ⟨[], rfl, by simp⟩
  · have hsame : (s.pagingRead f allocOnly).2.written = s₁.written := by
      rw [heq]
      cases allocOnly <;> rfl
    rw [hsame]
    rcases hroom with ⟨-, rfl⟩ | ⟨hfull, -, rfl⟩
    · exact ⟨[], rfl, by simp⟩
    · rcases hs.evicted_block with ⟨hempty, -⟩ | ⟨-, b, hb, hwritten⟩
      · exact absurd hempty (hfull _)
      · rw [hwritten]
        exact ⟨[b], rfl, by simpa using hb⟩

/-- `paging_write` writes to the disk if the frame is not cached, to make room. -/
theorem written_pagingWrite (harty : s.platform = .arty) (f : Fin 256) (pageNo : ℕ) :
    (s.pagingWrite f pageNo).written =
      if s.findSlot f = none then s.cacheEviction.2.written else s.written := by
  unfold pagingWrite
  rw [if_neg (by simp [harty])]
  cases s.findSlot f with
  | none => rfl
  | some i => rfl

/-- `paging_write` writes to the place of a cached frame, unless it picks an empty slot. -/
theorem Ok.pagingWrite_written (hs : s.Ok) (harty : s.platform = .arty) (f : Fin 256) (pageNo : ℕ) :
    ∃ new, (s.pagingWrite f pageNo).written = new ++ s.written ∧
      ((s.PicksTaken f ∧ ∀ b ∈ new, s.CachedBlock b) ∨ (¬ s.PicksTaken f ∧ 8388600 ∈ new)) := by
  rw [written_pagingWrite harty]
  cases hfind : s.findSlot f with
  | some i => exact ⟨[], rfl, Or.inl ⟨fun h => absurd (hfind.symm.trans h) (by simp), by simp⟩⟩
  | none =>
      rcases hs.evicted_block with ⟨hempty, hw⟩ | ⟨htaken, b, hb, hw⟩
      · refine ⟨[8388600], hw, Or.inr ⟨?_, by simp⟩⟩
        intro hpick
        exact hpick hfind hempty
      · exact ⟨[b], hw, Or.inl ⟨fun _ => htaken, by simpa using hb⟩⟩

/-! ### The frames that are cached -/

/-- A frame that takes a slot is the only new one in the cache. -/
theorem tag_of_setSlot {i j : Fin 28} {f g : Fin 256} {s' : Paging}
    (hslots : s'.cacheSlots = update s.cacheSlots i (Int.bmod (f : ℕ) (2 ^ 32)))
    (h : s'.cache.tag j = some g) : g = f ∨ s.cache.tag j = some g := by
  have hj' := frameIn_eq_some.1 h
  rw [hslots] at hj'
  by_cases hj : j = i
  · rw [hj, update_self, slot_bmod] at hj'
    exact Or.inl (Fin.ext (by omega))
  · rw [update_of_ne hj] at hj'
    exact Or.inr (frameIn_eq_some.2 hj')

theorem Ok.pagingRead_tag (hs : s.Ok) (harty : s.platform = .arty) {f g : Fin 256}
    {allocOnly : Bool} {j : Fin 28} (h : (s.pagingRead f allocOnly).2.cache.tag j = some g) :
    g = f ∨ s.cache.tag j = some g := by
  rcases hs.pagingRead_cases harty f allocOnly with ⟨i, -, heq⟩ | ⟨-, i, s₁, hroom, heq⟩
  · rw [heq] at h
    exact Or.inr h
  · obtain ⟨-, -, -, hslots⟩ := hs.room hroom
    refine tag_of_setSlot (i := i) ?_ h
    rw [heq, ← hslots]
    cases allocOnly <;> rfl

theorem Ok.pagingWrite_tag (hs : s.Ok) (harty : s.platform = .arty) {f g : Fin 256} {pageNo : ℕ}
    {j : Fin 28} (h : (s.pagingWrite f pageNo).cache.tag j = some g) :
    g = f ∨ s.cache.tag j = some g := by
  rcases hs.pagingWrite_cases harty f pageNo with ⟨i, -, heq⟩ | ⟨-, heq⟩
  · rw [heq] at h
    exact Or.inr h
  · refine tag_of_setSlot (i := s.evictIdx) ?_ h
    rw [heq]
    rfl

end Paging

namespace Mmu

/-! ### Conditions on a call -/

/-- The first block of a frame in use. -/
def UsedBlock (m : Mmu) (b : ℕ) : Prop := ∃ f : Fin 256, (m.table f).use = true ∧ b = 8 * f

/-- **The writes to the disk between two states** are those of frames in use: the device writes
eight blocks at a time. -/
def InArea (m m' : Mmu) : Prop :=
  ∃ new, m'.written = new ++ m.written ∧ ∀ b ∈ new, m.UsedBlock b

/-- The condition on the first loop of `soft_tlb_switch`. -/
def UnmapPicksTaken : Mmu → List (Fin 256) → Prop
  | _, [] => True
  | m, i :: is => (m.Owned i m.currVmPid → m.PicksTaken i) ∧ (m.unmapFrame i).UnmapPicksTaken is

instance UnmapPicksTaken.decidable : ∀ (m : Mmu) (l : List (Fin 256)),
    Decidable (m.UnmapPicksTaken l)
  | _, [] => isTrue trivial
  | m, i :: is =>
      have := UnmapPicksTaken.decidable (m.unmapFrame i) is
      inferInstanceAs (Decidable (_ ∧ _))

/-- **The outcomes of `rand` during a call** never make `paging_write` evict an empty slot. -/
def CallPicksTaken (m : Mmu) : Call → Prop
  | .softTlbSwitch pid => pid ≠ m.currVmPid → m.UnmapPicksTaken (List.finRange 256)
  | _ => True

instance (m : Mmu) (c : Call) : Decidable (m.CallPicksTaken c) :=
  match c with
  | .softTlbSwitch _ => inferInstanceAs (Decidable (_ → _))
  | .mmuAlloc => isTrue trivial
  | .softTlbMap _ _ _ => isTrue trivial
  | .mmuFree _ => isTrue trivial

/-! ### The invariant -/

/-- **Cached frames are in use.** -/
structure CachedUsed (m : Mmu) : Prop where
  arty : m.platform = .arty
  ok : m.toPaging.Ok
  used : ∀ j f, m.cache.tag j = some f → (m.table f).use = true

variable {m m' : Mmu}

theorem CachedUsed.usedBlock (h : m.CachedUsed) {b : ℕ} (hb : m.CachedBlock b) : m.UsedBlock b := by
  obtain ⟨j, f, htag, hbf⟩ := hb
  exact ⟨f, h.used j f htag, hbf⟩

/-- The block that an empty slot is written to belongs to no frame. -/
theorem not_usedBlock_empty (m : Mmu) : ¬ m.UsedBlock 8388600 := by
  rintro ⟨f, -, hf⟩
  have := f.isLt
  omega

theorem InArea.refl (m : Mmu) : InArea m m := ⟨[], rfl, by simp⟩

theorem InArea.trans {m₁ m₂ m₃ : Mmu} (h : InArea m₁ m₂) (h' : InArea m₂ m₃)
    (htable : m₂.table = m₁.table) : InArea m₁ m₃ := by
  obtain ⟨new, hw, hnew⟩ := h
  obtain ⟨new', hw', hnew'⟩ := h'
  refine ⟨new' ++ new, ?_, ?_⟩
  · rw [hw', hw, List.append_assoc]
  · intro b hb
    rcases List.mem_append.1 hb with hb | hb
    · obtain ⟨f, hf, hbf⟩ := hnew' b hb
      rw [htable] at hf
      exact ⟨f, hf, hbf⟩
    · exact hnew b hb

/-- A write outside of the area stays in the record. -/
theorem InArea.not_of_mem {m₁ m₂ : Mmu} {new : List ℕ} (hw : m₂.written = new ++ m₁.written)
    (hnew : 8388600 ∈ new) : ¬ InArea m₁ m₂ := by
  rintro ⟨new', hw', hnew'⟩
  have hsame : new' = new := List.append_cancel_right (hw'.symm.trans hw)
  exact not_usedBlock_empty m₁ (hnew' _ (hsame ▸ hnew))

/-! ### Switching -/

/-- What one turn of the first loop of `soft_tlb_switch` does. -/
theorem CachedUsed.unmapFrame (h : m.CachedUsed) (i : Fin 256) :
    (m.unmapFrame i).CachedUsed ∧ (m.unmapFrame i).table = m.table ∧
      ∃ new, (m.unmapFrame i).written = new ++ m.written ∧
        (((m.Owned i m.currVmPid → m.PicksTaken i) ∧ ∀ b ∈ new, m.UsedBlock b) ∨
          (¬ (m.Owned i m.currVmPid → m.PicksTaken i) ∧ 8388600 ∈ new)) := by
  unfold Mmu.unmapFrame
  by_cases hi : m.Owned i m.currVmPid
  · rw [if_pos hi]
    obtain ⟨hok, hkeeps, -⟩ := h.ok.pagingWrite_spec i (m.table i).pageNo
    refine ⟨⟨hkeeps.platform.trans h.arty, hok, ?_⟩, rfl, ?_⟩
    · intro j f hf
      rcases h.ok.pagingWrite_tag h.arty hf with rfl | hf
      · exact hi.1
      · exact h.used j f hf
    · obtain ⟨new, hw, hcases⟩ := h.ok.pagingWrite_written h.arty i (m.table i).pageNo
      refine ⟨new, hw, ?_⟩
      rcases hcases with ⟨hpick, hnew⟩ | ⟨hpick, hnew⟩
      · exact Or.inl ⟨fun _ => hpick, fun b hb => h.usedBlock (hnew b hb)⟩
      · exact Or.inr ⟨fun hc => hpick (hc hi), hnew⟩
  · rw [if_neg hi]
    exact ⟨h, rfl, [], rfl, Or.inl ⟨fun hc => absurd hc hi, by simp⟩⟩

/-- What the first loop of `soft_tlb_switch` does. -/
theorem CachedUsed.unmap (l : List (Fin 256)) : ∀ {m : Mmu}, m.CachedUsed →
    (l.foldl Mmu.unmapFrame m).CachedUsed ∧ (l.foldl Mmu.unmapFrame m).table = m.table ∧
      ∃ new, (l.foldl Mmu.unmapFrame m).written = new ++ m.written ∧
        ((m.UnmapPicksTaken l ∧ ∀ b ∈ new, m.UsedBlock b) ∨
          (¬ m.UnmapPicksTaken l ∧ 8388600 ∈ new)) := by
  induction l with
  | nil =>
      intro m h
      exact ⟨h, rfl, [], rfl, Or.inl ⟨trivial, by simp⟩⟩
  | cons i l ih =>
      intro m h
      obtain ⟨h₁, htable₁, new₁, hw₁, hcases₁⟩ := h.unmapFrame i
      obtain ⟨h₂, htable₂, new₂, hw₂, hcases₂⟩ := ih h₁
      rw [List.foldl_cons]
      refine ⟨h₂, htable₂.trans htable₁, new₂ ++ new₁, ?_, ?_⟩
      · rw [hw₂, hw₁, List.append_assoc]
      · have hused : ∀ b, (m.unmapFrame i).UsedBlock b → m.UsedBlock b := by
          rintro b ⟨f, hf, hb⟩
          rw [htable₁] at hf
          exact ⟨f, hf, hb⟩
        rcases hcases₁ with ⟨hpick₁, hnew₁⟩ | ⟨hpick₁, hnew₁⟩
        · rcases hcases₂ with ⟨hpick₂, hnew₂⟩ | ⟨hpick₂, hnew₂⟩
          · refine Or.inl ⟨⟨hpick₁, hpick₂⟩, ?_⟩
            intro b hb
            rcases List.mem_append.1 hb with hb | hb
            · exact hused b (hnew₂ b hb)
            · exact hnew₁ b hb
          · exact Or.inr ⟨fun hc => hpick₂ hc.2, List.mem_append_left _ hnew₂⟩
        · exact Or.inr ⟨fun hc => hpick₁ hc.1, List.mem_append_right _ hnew₁⟩

/-- What one turn of the second loop of `soft_tlb_switch` does. -/
theorem CachedUsed.mapFrame (h : m.CachedUsed) (pid : ℤ) (i : Fin 256) :
    (m.mapFrame pid i).CachedUsed ∧ (m.mapFrame pid i).table = m.table ∧
      InArea m (m.mapFrame pid i) := by
  unfold Mmu.mapFrame
  by_cases hi : m.Owned i pid
  · rw [if_pos hi]
    obtain ⟨hok, hkeeps, -, -⟩ := h.ok.pagingRead_spec i false
    obtain ⟨new, hw, hnew⟩ := h.ok.pagingRead_written h.arty i false
    refine ⟨⟨hkeeps.platform.trans h.arty, hok.setPage _ _, ?_⟩, rfl, new, hw, ?_⟩
    · intro j f hf
      rcases h.ok.pagingRead_tag h.arty hf with rfl | hf
      · exact hi.1
      · exact h.used j f hf
    · intro b hb
      exact h.usedBlock (hnew b hb)
  · rw [if_neg hi]
    exact ⟨h, rfl, InArea.refl m⟩

/-- What the second loop of `soft_tlb_switch` does. -/
theorem CachedUsed.map (h : m.CachedUsed) (pid : ℤ) (l : List (Fin 256)) :
    (l.foldl (Mmu.mapFrame pid) m).CachedUsed ∧
      (l.foldl (Mmu.mapFrame pid) m).table = m.table ∧ InArea m (l.foldl (Mmu.mapFrame pid) m) := by
  refine Runs.foldl_done (f := Mmu.mapFrame pid)
    (I := fun _ m' => m'.CachedUsed ∧ m'.table = m.table ∧ InArea m m') ?_ l [] m
    ⟨h, rfl, InArea.refl m⟩
  rintro - i m₁ ⟨h₁, htable₁, harea₁⟩
  obtain ⟨h₂, htable₂, harea₂⟩ := h₁.mapFrame pid i
  exact ⟨h₂, htable₂.trans htable₁, harea₁.trans harea₂ htable₁⟩

/-- **`soft_tlb_switch`** stays in the area if and only if its first loop evicts no empty slot. -/
theorem CachedUsed.softTlbSwitch (h : m.CachedUsed) (pid : ℤ) :
    (m.softTlbSwitch pid).CachedUsed ∧
      (InArea m (m.softTlbSwitch pid) ↔ m.CallPicksTaken (.softTlbSwitch pid)) := by
  unfold Mmu.softTlbSwitch
  by_cases hcurr : pid = m.currVmPid
  · rw [if_pos hcurr]
    exact ⟨h, fun _ hne => absurd hcurr hne, fun _ => InArea.refl m⟩
  · rw [if_neg hcurr]
    dsimp only
    have hpick : m.CallPicksTaken (.softTlbSwitch pid) ↔ m.UnmapPicksTaken (List.finRange 256) :=
      ⟨fun hp => hp hcurr, fun hp _ => hp⟩
    rw [hpick]
    obtain ⟨h₁, htable₁, new₁, hw₁, hcases⟩ := CachedUsed.unmap (List.finRange 256) h
    generalize (List.finRange 256).foldl Mmu.unmapFrame m = m₁ at h₁ htable₁ hw₁ ⊢
    obtain ⟨h₂, -, new₂, hw₂, hnew₂⟩ := h₁.map pid (List.finRange 256)
    generalize (List.finRange 256).foldl (Mmu.mapFrame pid) m₁ = m₂ at h₂ hw₂ ⊢
    refine ⟨⟨h₂.arty, h₂.ok, h₂.used⟩, ?_⟩
    have hw : m₂.written = (new₂ ++ new₁) ++ m.written := by
      rw [hw₂, hw₁, List.append_assoc]
    rcases hcases with ⟨hpick₁, hnew₁⟩ | ⟨hpick₁, hnew₁⟩
    · refine ⟨fun _ => hpick₁, fun _ => ⟨new₂ ++ new₁, hw, ?_⟩⟩
      intro b hb
      rcases List.mem_append.1 hb with hb | hb
      · obtain ⟨f, hf, hbf⟩ := hnew₂ b hb
        rw [htable₁] at hf
        exact ⟨f, hf, hbf⟩
      · exact hnew₁ b hb
    · refine ⟨fun harea => ?_, fun hp => absurd hp hpick₁⟩
      exact absurd harea (InArea.not_of_mem hw (List.mem_append_right _ hnew₁))

/-! ### The other calls -/

theorem CachedUsed.freeFrame (h : m.CachedUsed) (pid : ℤ) (i : Fin 256) :
    (m.freeFrame pid i).CachedUsed ∧ (m.freeFrame pid i).written = m.written := by
  have htable := freeFrame_table m pid i
  by_cases hi : m.Owned i pid
  · have heq : (m.freeFrame pid i).toPaging = m.toPaging.pagingInvalidateCache i := by
      unfold Mmu.freeFrame
      rw [if_pos hi]
    obtain ⟨hok, hkeeps⟩ := h.ok.invalidate_spec i
    refine ⟨⟨?_, ?_, ?_⟩, ?_⟩
    · rw [heq]
      exact h.arty
    · rw [heq]
      exact hok
    · intro j f hf
      -- the frame that was freed is not cached any more
      rw [heq, h.ok.cache_invalidate i, WriteBack.Cache.drop_tag_eq_some] at hf
      rw [htable, if_neg (fun hc => hf.2 hc.1)]
      exact h.used j f hf.1
    · rw [heq]
      rfl
  · have heq : m.freeFrame pid i = m := by
      unfold Mmu.freeFrame
      rw [if_neg hi]
    rw [heq]
    exact ⟨h, rfl⟩

theorem CachedUsed.mmuFree (h : m.CachedUsed) (pid : ℤ) :
    (m.mmuFree pid).CachedUsed ∧ (m.mmuFree pid).written = m.written := by
  rw [Mmu.mmuFree]
  refine Runs.foldl_done (f := Mmu.freeFrame pid)
    (I := fun _ m' => m'.CachedUsed ∧ m'.written = m.written) ?_ (List.finRange 256) [] m ⟨h, rfl⟩
  rintro - i m₁ ⟨h₁, hw₁⟩
  obtain ⟨h₂, hw₂⟩ := h₁.freeFrame pid i
  exact ⟨h₂, hw₂.trans hw₁⟩

theorem CachedUsed.mmuAlloc {i : Fin 256} {a : ℕ} (h : m.CachedUsed)
    (ha : m.mmuAlloc = .ok (i, a, m')) : m'.CachedUsed ∧ InArea m m' := by
  obtain ⟨-, hread, htable, -⟩ := mmuAlloc_eq ha
  obtain ⟨hok, hkeeps, -, -⟩ := h.ok.pagingRead_spec i true
  obtain ⟨new, hw, hnew⟩ := h.ok.pagingRead_written h.arty i true
  have htag : ∀ j f, m'.cache.tag j = some f → f = i ∨ m.cache.tag j = some f := by
    intro j f hf
    have hf' : (m.toPaging.pagingRead i true).2.cache.tag j = some f := by
      rw [hread]
      exact hf
    exact h.ok.pagingRead_tag h.arty hf'
  rw [hread] at hok hkeeps hw
  refine ⟨⟨hkeeps.platform.trans h.arty, hok, ?_⟩, new, hw, fun b hb => h.usedBlock (hnew b hb)⟩
  intro j f hf
  rw [htable]
  by_cases hfi : f = i
  · rw [hfi, update_self]
  · rw [update_of_ne hfi]
    exact h.used j f ((htag j f hf).resolve_left hfi)

/-- **One call.** -/
theorem CachedUsed.call {c : Call} (h : m.CachedUsed) (hc : m.call c = some m') :
    m'.CachedUsed ∧ (InArea m m' ↔ m.CallPicksTaken c) := by
  cases c with
  | mmuAlloc =>
      rw [Mmu.call] at hc
      cases ha : m.mmuAlloc with
      | error e =>
          rw [ha] at hc
          exact absurd hc (by simp)
      | ok r =>
          obtain ⟨i, a, m₁⟩ := r
          rw [ha] at hc
          obtain rfl := Option.some.inj hc
          obtain ⟨h₁, harea⟩ := h.mmuAlloc ha
          exact ⟨h₁, fun _ => trivial, fun _ => harea⟩
  | softTlbMap pid pageNo frameId =>
      obtain rfl := Option.some.inj hc
      refine ⟨⟨h.arty, h.ok, ?_⟩, fun _ => trivial, fun _ => ⟨[], rfl, by simp⟩⟩
      intro j f hf
      change (update m.table frameId _ f).use = true
      by_cases hff : f = frameId
      · rw [hff, update_self]
        exact h.used j frameId (hff ▸ hf)
      · rw [update_of_ne hff]
        exact h.used j f hf
  | mmuFree pid =>
      obtain rfl := Option.some.inj hc
      obtain ⟨h₁, hw⟩ := h.mmuFree pid
      exact ⟨h₁, fun _ => trivial, fun _ => ⟨[], hw, by simp⟩⟩
  | softTlbSwitch pid =>
      obtain rfl := Option.some.inj hc
      exact h.softTlbSwitch pid

theorem init_cachedUsed (p : Paging) (harty : p.platform = .arty) : (init p).CachedUsed := by
  refine ⟨harty, p.pagingInit_ok, ?_⟩
  intro j f hf
  exact absurd hf (by simp [init, Paging.cache, Paging.pagingInit])

/-- **Swapping stays inside the paging area** in a run from `mmu_init` if and only if no outcome of
`rand` makes `paging_write` evict an empty slot. -/
theorem inArea_iff (p : Paging) (harty : p.platform = .arty) (cs : List Call) :
    Runs.EveryStep call (fun m _ m' => InArea m m') (init p) cs ↔
      Runs.EveryStep call (fun m c _ => m.CallPicksTaken c) (init p) cs := by
  constructor
  · refine Runs.EveryStep.imp (I := fun m _ => m.CachedUsed) ?_ cs _ (init_cachedUsed p harty)
    intro m c cs m' h hc harea
    obtain ⟨h', hiff⟩ := h.call hc
    exact ⟨hiff.1 harea, h'⟩
  · refine Runs.EveryStep.imp (I := fun m _ => m.CachedUsed) ?_ cs _ (init_cachedUsed p harty)
    intro m c cs m' h hc hpick
    obtain ⟨h', hiff⟩ := h.call hc
    exact ⟨hiff.2 hpick, h'⟩

/-- A process is switched in, and another one is given as many frames as there are slots: the frame
of the first process is swapped out. -/
def swapOut : List Call :=
  [.mmuAlloc, .softTlbMap 1 0x8005 0, .softTlbSwitch 1] ++ List.replicate 28 .mmuAlloc ++
    (List.range 28).map fun n => .softTlbMap 2 (0x8005 + n) (Fin.ofNat 256 (n + 1))

/-- The switch to the other process finds no empty slot. -/
theorem inArea_iff_swapOut :
    Runs.EveryStep call (fun m _ m' => InArea m m') (init (Paging.board .arty fun _ => 0))
      (swapOut ++ [.softTlbSwitch 2]) :=
  (inArea_iff (Paging.board .arty fun _ => 0) rfl _).2 (by decide +kernel)

/-- If the other process is freed before the switch, its slots are empty, and one of them is
evicted. -/
theorem swap_outside_area :
    ∃ m, (init (Paging.board .arty fun _ => 0)).calls
        (swapOut ++ [.mmuFree 2, .softTlbSwitch 2]) = some m ∧
      ∃ b ∈ m.written, ∀ f : Fin 256, b ≠ 8 * f.val := by
  have hrun : ((init (Paging.board .arty fun _ => 0)).calls
      (swapOut ++ [.mmuFree 2, .softTlbSwitch 2])).any (fun m => 8388600 ∈ m.written) = true := by
    decide +kernel
  obtain ⟨m, hm, hmem⟩ := (Option.any_eq_true _ _).1 hrun
  refine ⟨m, hm, 8388600, of_decide_eq_true hmem, ?_⟩
  intro f
  have := f.isLt
  omega

end Mmu

end Egos
