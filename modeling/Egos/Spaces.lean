/-
**The address spaces are private.**

A system that uses the software TLB allocates frames, fills them, maps them to pages of processes,
frees them, and switches between processes, each of which writes to its own pages.  Beside it runs
an ideal memory in which every frame has a page of its own, which only the loader and the owner of
the frame write to.  After any run, the process that is switched in finds at its pages what the
ideal memory has in its frames.

Main definitions:

* `Egos.Spaces` — the MMU together with the ideal memory;
* `Egos.Spaces.step`, `Egos.Spaces.run` — the operations, under the conditions of their callers.

Main results:

* `Egos.Spaces.switched_in` — **what a process finds when it is switched in.**
-/

import Egos.Mmu

set_option autoImplicit false

namespace Egos

open Function (update update_of_ne update_self)

/-- The MMU, and the ideal memory. -/
structure Spaces where
  mmu : Mmu
  /-- What `mmu_alloc` returned, until the device is used again. -/
  fresh : Option (Fin 256 × ℕ)
  /-- The bytes last loaded into each frame, or written there by its process. -/
  own : Fin 256 → Page

namespace Spaces

/-- The operations. -/
inductive Op
  | mmuAlloc
  /-- Stores through the address that `mmu_alloc` returned. -/
  | load (f : Page → Page)
  | softTlbMap (pid : ℤ) (pageNo : ℕ) (frameId : Fin 256)
  | mmuFree (pid : ℤ)
  | softTlbSwitch (pid : ℤ)
  /-- The process that is switched in writes to the page of one of its frames. -/
  | write (i : Fin 256) (f : Page → Page)

instance (pageNo : ℕ) : Decidable (Mmu.UserPage pageNo) :=
  inferInstanceAs (Decidable (_ ∧ _))

/-- **One operation.**  A frame is mapped once, for a process that is not switched in and has no
other frame at that page; the process that is switched in is not freed; and there is no process
0. -/
def step (s : Spaces) : Op → Option Spaces
  | .mmuAlloc =>
      match s.mmu.mmuAlloc with
      | .ok (i, a, m) =>
          some { mmu := m, fresh := some (i, a), own := update s.own i (m.mem a) }
      | .error _ => none
  | .load f =>
      match s.fresh with
      | some (i, a) =>
          some { s with
            mmu := { s.mmu with toPaging := s.mmu.toPaging.setPage a (f (s.mmu.mem a)) }
            own := update s.own i (f (s.own i)) }
      | none => none
  | .softTlbMap pid pageNo i =>
      if s.mmu.Owned i 0 ∧ pid ≠ s.mmu.currVmPid ∧ Mmu.UserPage pageNo ∧
          ∀ j, s.mmu.Owned j pid → (s.mmu.table j).pageNo ≠ pageNo then
        some { s with mmu := s.mmu.softTlbMap pid pageNo i }
      else none
  | .mmuFree pid =>
      if pid ≠ s.mmu.currVmPid then some { s with mmu := s.mmu.mmuFree pid, fresh := none }
      else none
  | .softTlbSwitch pid =>
      if pid ≠ 0 then some { s with mmu := s.mmu.softTlbSwitch pid, fresh := none } else none
  | .write i f =>
      if s.mmu.Owned i s.mmu.currVmPid then
        some { s with
          mmu := { s.mmu with
            toPaging := s.mmu.toPaging.setPage (s.mmu.table i).pageNo
              (f (s.mmu.mem (s.mmu.table i).pageNo)) }
          own := update s.own i (f (s.own i)) }
      else none

/-- A run of operations. -/
def run (s : Spaces) (ops : List Op) : Option Spaces := ops.foldlM step s

/-- The MMU after `mmu_init`: no frame is in use, and the rest of the machine is arbitrary. -/
def start (p : Paging) : Spaces :=
  { mmu := Mmu.init p
    fresh := none
    own := fun _ _ => nullBlock }

/-! ### The invariant -/

/-- **The frames hold what the ideal memory has.** -/
structure Ok (s : Spaces) : Prop where
  mmu : s.mmu.Private s.own
  /-- The loader may store to a frame whose process does not run. -/
  fresh : ∀ i a, s.fresh = some (i, a) →
    s.mmu.FrameAt i a ∧ (s.mmu.table i).use = true ∧ (s.mmu.table i).pid ≠ s.mmu.currVmPid

variable {s s' : Spaces}

theorem start_ok (p : Paging) : (start p).Ok := by
  refine ⟨⟨⟨?_, ?_, ?_⟩, p.pagingInit_ok, ?_, ?_, ?_⟩, ?_⟩
  · intro i j pid _ hi
    exact absurd hi.1 (by simp [start, Mmu.init])
  · intro i pid _ hi
    exact absurd hi.1 (by simp [start, Mmu.init])
  · intro i _
    rfl
  · change (-1 : ℤ) ≠ 0
    decide
  · intro i hi
    exact absurd hi.1 (by simp [start, Mmu.init])
  · intro i hi
    exact absurd hi (by simp [start, Mmu.init])
  · intro i a h
    exact absurd h (by simp [start, Mmu.init])

/-- **One operation keeps the invariant.** -/
theorem Ok.step {op : Op} (h : s.Ok) (hs : s.step op = some s') : s'.Ok := by
  cases op with
  | mmuAlloc =>
      rw [Spaces.step] at hs
      cases ha : s.mmu.mmuAlloc with
      | error e =>
          rw [ha] at hs
          exact absurd hs (by simp)
      | ok r =>
          obtain ⟨i, a, m⟩ := r
          rw [ha] at hs
          obtain rfl := Option.some.inj hs
          obtain ⟨hm, hat, hzero⟩ := h.mmu.mmuAlloc ha
          refine ⟨hm, ?_⟩
          intro j b hj
          obtain ⟨rfl, rfl⟩ := Prod.mk.inj (Option.some.inj hj)
          refine ⟨hat, hzero.1, ?_⟩
          rw [hzero.2]
          exact hm.curr.symm
  | load f =>
      rw [Spaces.step] at hs
      cases hf : s.fresh with
      | none =>
          rw [hf] at hs
          exact absurd hs (by simp)
      | some r =>
          obtain ⟨i, a⟩ := r
          rw [hf] at hs
          obtain rfl := Option.some.inj hs
          obtain ⟨hat, huse, hpid⟩ := h.fresh i a hf
          have hcontents : s.mmu.mem a = s.own i :=
            h.mmu.ok.hasFrame_unique hat.hasFrame (h.mmu.stored i huse hpid)
          obtain ⟨hm, hat'⟩ := h.mmu.load hat hpid (f (s.mmu.mem a))
          rw [hcontents] at hm hat' ⊢
          refine ⟨hm, ?_⟩
          intro j b hj
          obtain ⟨rfl, rfl⟩ := Prod.mk.inj (Option.some.inj hj)
          exact ⟨hat', huse, hpid⟩
  | softTlbMap pid pageNo i =>
      rw [Spaces.step] at hs
      split at hs
      · rename_i hc
        obtain ⟨hi, hcurr, hpage, hnew⟩ := hc
        obtain rfl := Option.some.inj hs
        refine ⟨h.mmu.softTlbMap hi hcurr hpage hnew, ?_⟩
        intro j b hj
        obtain ⟨hat, huse, hpid⟩ := h.fresh j b hj
        refine ⟨hat, ?_⟩
        change (update s.mmu.table i _ j).use = true ∧
          (update s.mmu.table i _ j).pid ≠ s.mmu.currVmPid
        by_cases hji : j = i
        · rw [hji, update_self]
          exact ⟨hi.1, hcurr⟩
        · rw [update_of_ne hji]
          exact ⟨huse, hpid⟩
      · exact absurd hs (by simp)
  | mmuFree pid =>
      rw [Spaces.step] at hs
      split at hs
      · obtain rfl := Option.some.inj hs
        obtain ⟨hm, -⟩ := h.mmu.mmuFree pid
        constructor
        · dsimp only
          exact hm
        · intro i a hf
          exact absurd hf.symm (Option.some_ne_none _)
      · exact absurd hs (by simp)
  | softTlbSwitch pid =>
      rw [Spaces.step] at hs
      split at hs
      · rename_i hpid
        obtain rfl := Option.some.inj hs
        refine ⟨(h.mmu.softTlbSwitch hpid).1, ?_⟩
        intro i a hf
        exact absurd hf.symm (Option.some_ne_none _)
      · exact absurd hs (by simp)
  | write i f =>
      rw [Spaces.step] at hs
      split at hs
      · rename_i hi
        obtain rfl := Option.some.inj hs
        have hcontents := h.mmu.live i hi
        have hm := h.mmu.write hi (f (s.mmu.mem (s.mmu.table i).pageNo))
        rw [hcontents] at hm ⊢
        refine ⟨hm, ?_⟩
        intro j b hj
        obtain ⟨hat, huse, hpid⟩ := h.fresh j b hj
        exact ⟨hat, huse, hpid⟩
      · exact absurd hs (by simp)

/-- **Every run keeps the invariant.** -/
theorem Ok.run {ops : List Op} : ∀ {s s' : Spaces}, s.Ok → s.run ops = some s' → s'.Ok := by
  induction ops with
  | nil =>
      intro s s' h hrun
      obtain rfl := Option.some.inj hrun
      exact h
  | cons op ops ih =>
      intro s s' h hrun
      rw [Spaces.run, List.foldlM_cons] at hrun
      obtain ⟨s₁, h₁, hrest⟩ := Option.bind_eq_some_iff.1 hrun
      exact ih (h.step h₁) hrest

/-- **What a process finds when it is switched in**: at every page mapped for it, the bytes that
were there when it was switched out, or were loaded into the frame since, whatever happened to the
other processes in between. -/
theorem switched_in (p : Paging) (ops : List Op) (pid : ℤ)
    (hrun : (start p).run (ops ++ [.softTlbSwitch pid]) = some s) :
    ∀ i, s.mmu.Owned i pid → s.mmu.mem (s.mmu.table i).pageNo = s.own i := by
  have hok := (start_ok p).run hrun
  have hcurr : s.mmu.currVmPid = pid := by
    rw [Spaces.run, List.foldlM_append] at hrun
    obtain ⟨s₁, h₁, h₂⟩ := Option.bind_eq_some_iff.1 hrun
    rw [List.foldlM_cons] at h₂
    obtain ⟨s₂, hs₂, hlast⟩ := Option.bind_eq_some_iff.1 h₂
    obtain rfl := Option.some.inj hlast
    rw [Spaces.step] at hs₂
    split at hs₂
    · rename_i hpid
      obtain rfl := Option.some.inj hs₂
      exact (((start_ok p).run h₁).mmu.softTlbSwitch hpid).2.1
    · exact absurd hs₂ (by simp)
  intro i hi
  exact hok.mmu.live i (hcurr ▸ hi)

/-- Two processes are mapped at the same page and write to it in turns. -/
def turns : List Op :=
  [.mmuAlloc, .load (fun _ _ => nullBlock), .softTlbMap 1 0x8005 0,
    .mmuAlloc, .softTlbMap 2 0x8005 1,
    .softTlbSwitch 1, .write 0 (fun _ _ _ => 7), .softTlbSwitch 2, .write 1 (fun _ _ _ => 8)]

/-- The first process finds its page again. -/
theorem switched_in_turns :
    ∃ s, (start (Paging.board .arty fun _ => 0)).run (turns ++ [.softTlbSwitch 1]) = some s ∧
      s.mmu.Owned 0 1 ∧ s.mmu.mem (s.mmu.table 0).pageNo = s.own 0 := by
  have hrun : ((start (Paging.board .arty fun _ => 0)).run (turns ++ [.softTlbSwitch 1])).any
      (fun s => s.mmu.Owned 0 1) = true := by decide +kernel
  obtain ⟨s, hs, hown⟩ := (Option.any_eq_true _ _).1 hrun
  exact ⟨s, hs, of_decide_eq_true hown, switched_in _ _ 1 hs 0 (of_decide_eq_true hown)⟩

end Spaces

end Egos
