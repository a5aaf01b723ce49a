/-
**The two ways to page agree.**

On the Arty board the frames are cached in 28 slots and swapped out at random; on QEMU they are an
array.  This module runs the same operations on both, and shows that the callers of the paging
device cannot tell them apart: wherever a byte of a frame has been written, both have the same byte.

Main definitions:

* `Egos.Twins`, `Egos.Twins.step`, `Egos.Twins.run` — the two machines, and the bytes written so
  far.

Main results:

* `Egos.Twins.frames_agree` — **no frame is in two slots, and frames that have been written are the
  same on both machines**, for all choices of the slots to evict.
-/

import Egos.Paging

set_option autoImplicit false

namespace Egos

open Function (update update_of_ne update_self)
open Paging (pagesStart pageAt Outside)

/-- A page with one byte replaced. -/
def Page.setByte (p : Page) (j : Fin 8) (k : Fin 512) (b : UInt8) : Page :=
  fun j' k' => if j' = j ∧ k' = k then b else p j' k'

/-- An Arty board and a QEMU machine that perform the same operations. -/
structure Twins where
  arty : Paging
  qemu : Paging
  /-- The frame that was read last and where it is on the two machines, until the device is used
  again. -/
  last : Option (Fin 256 × ℕ × ℕ)
  /-- The bytes of each frame written since it was last allocated or invalidated. -/
  written : Fin 256 → Fin 8 → Fin 512 → Bool

namespace Twins

/-- The operations. -/
inductive Op
  | pagingRead (f : Fin 256) (allocOnly : Bool)
  /-- A page that is not a frame is written to a frame. -/
  | pagingWrite (f : Fin 256) (pageNo : ℕ)
  | pagingInvalidateCache (f : Fin 256)
  /-- A byte is stored through the address that `paging_read` returned. -/
  | store (j : Fin 8) (k : Fin 512) (b : UInt8)
  /-- The rest of the system writes to the rest of the memory. -/
  | setPage (a : ℕ) (p : Page)

/-- **One operation**, on both machines. -/
def step (s : Twins) : Op → Option Twins
  | .pagingRead f allocOnly =>
      let r := s.arty.pagingRead f allocOnly
      let r' := s.qemu.pagingRead f allocOnly
      some
        { arty := r.2
          qemu := r'.2
          last := some (f, r.1, r'.1)
          written := if allocOnly then update s.written f fun _ _ => false else s.written }
  | .pagingWrite f pageNo =>
      if Outside (pageAt pageNo) then
        some
          { arty := s.arty.pagingWrite f pageNo
            qemu := s.qemu.pagingWrite f pageNo
            last := none
            written := update s.written f fun _ _ => true }
      else none
  | .pagingInvalidateCache f =>
      some
        { arty := s.arty.pagingInvalidateCache f
          qemu := s.qemu.pagingInvalidateCache f
          last := none
          written := update s.written f fun _ _ => false }
  | .store j k b =>
      match s.last with
      | some (f, a, a') =>
          some { s with
            arty := s.arty.setPage a (Page.setByte (s.arty.mem a) j k b)
            qemu := s.qemu.setPage a' (Page.setByte (s.qemu.mem a') j k b)
            written := update s.written f fun j' k' =>
              s.written f j' k' || (j' == j && k' == k) }
      | none => none
  | .setPage a p =>
      if Outside a then some { s with arty := s.arty.setPage a p, qemu := s.qemu.setPage a p }
      else none

/-- A run of operations. -/
def run (s : Twins) (ops : List Op) : Option Twins := ops.foldlM step s

/-- The two machines after `paging_init`. -/
def start (arty qemu : Paging) : Twins :=
  { arty := arty.pagingInit
    qemu := qemu.pagingInit
    last := none
    written := fun _ _ _ => false }

/-! ### The invariant -/

/-- **The machines agree** outside of the frames, and on the bytes of the frames that have been
written. -/
structure Ok (s : Twins) : Prop where
  arty : s.arty.platform = .arty
  qemu : s.qemu.platform ≠ .arty
  ok : s.arty.Ok
  mem : ∀ a, Outside a → s.arty.mem a = s.qemu.mem a
  frame : ∀ f p, s.arty.HasFrame f p → ∀ j k, s.written f j k = true →
    p j k = s.qemu.mem (pagesStart + f) j k
  last : ∀ f a a', s.last = some (f, a, a') → s.arty.FrameAt f a ∧ a' = pagesStart + f

variable {s s' : Twins}

/-- The frames other than the one used had their contents before. -/
theorem hasFrame_of_keeps {p p' : Paging} {f g : Fin 256} {q : Page} (h : p.Keeps f p')
    (hok : p'.Ok) (hg : g ≠ f) (hq : p'.HasFrame g q) : p.HasFrame g q := by
  obtain ⟨q₀, hq₀⟩ := p.exists_hasFrame g
  rw [hok.hasFrame_unique hq (h.frame g hg q₀ hq₀)]
  exact hq₀

/-- A store to a frame of the array leaves the other ones and the rest of the memory. -/
theorem setPage_frame (q : Paging) {f g : Fin 256} (hg : g ≠ f) (p : Page) :
    (q.setPage (pagesStart + f) p).mem (pagesStart + g) = q.mem (pagesStart + g) := by
  refine update_of_ne ?_ _ _
  intro he
  exact hg (Fin.ext (by omega))

theorem setPage_outside (q : Paging) (f : Fin 256) {a : ℕ} (ha : Outside a) (p : Page) :
    (q.setPage (pagesStart + f) p).mem a = q.mem a := by
  refine update_of_ne ?_ _ _
  rintro rfl
  exact Paging.not_outside_frame f ha

theorem Ok.pagingRead (h : s.Ok) {f : Fin 256} {allocOnly : Bool}
    (hs : s.step (.pagingRead f allocOnly) = some s') : s'.Ok := by
  obtain ⟨hok, hkeeps, hat, hsame⟩ := h.ok.pagingRead_spec f allocOnly
  have hqemu : s.qemu.pagingRead f allocOnly = (pagesStart + f, s.qemu) := by
    unfold Paging.pagingRead
    rw [if_pos h.qemu]
  rw [Twins.step, hqemu] at hs
  obtain rfl := Option.some.inj hs
  refine ⟨hkeeps.platform.trans h.arty, h.qemu, hok, ?_, ?_, ?_⟩
  · intro a ha
    exact (hkeeps.mem a ha).trans (h.mem a ha)
  · intro g p hp j k hw
    by_cases hg : g = f
    · subst hg
      cases allocOnly with
      | true => simp at hw
      | false =>
          -- the frame has the contents it had
          obtain ⟨p₀, hp₀⟩ := s.arty.exists_hasFrame g
          rw [hok.hasFrame_unique hp (hsame rfl p₀ hp₀)]
          exact h.frame g p₀ hp₀ j k (by simpa using hw)
    · refine h.frame g p (hasFrame_of_keeps hkeeps hok hg hp) j k ?_
      cases allocOnly with
      | true => simpa [update_of_ne hg] using hw
      | false => simpa using hw
  · intro g a a' hlast
    obtain ⟨rfl, hrest⟩ := Prod.mk.inj (Option.some.inj hlast)
    obtain ⟨rfl, rfl⟩ := Prod.mk.inj hrest
    exact ⟨hat, rfl⟩

theorem Ok.pagingWrite (h : s.Ok) {f : Fin 256} {pageNo : ℕ}
    (hs : s.step (.pagingWrite f pageNo) = some s') : s'.Ok := by
  obtain ⟨hok, hkeeps, hframe⟩ := h.ok.pagingWrite_spec f pageNo
  have hqemu : s.qemu.pagingWrite f pageNo =
      s.qemu.setPage (pagesStart + f) (s.qemu.mem (pageAt pageNo)) := by
    unfold Paging.pagingWrite
    rw [if_pos h.qemu]
  rw [Twins.step, hqemu] at hs
  split at hs
  · rename_i hout
    obtain rfl := Option.some.inj hs
    refine ⟨hkeeps.platform.trans h.arty, h.qemu, hok, ?_, ?_, ?_⟩
    · intro a ha
      rw [setPage_outside _ _ ha, ← h.mem a ha]
      exact hkeeps.mem a ha
    · intro g p hp j k hw
      by_cases hg : g = f
      · subst hg
        rw [hok.hasFrame_unique hp hframe, h.mem _ hout]
        change _ = update s.qemu.mem _ _ _ j k
        rw [update_self]
      · rw [setPage_frame _ hg]
        refine h.frame g p (hasFrame_of_keeps hkeeps hok hg hp) j k ?_
        simpa [update_of_ne hg] using hw
    · intro g a a' hlast
      exact absurd hlast.symm (Option.some_ne_none _)
  · exact absurd hs (by simp)

theorem Ok.pagingInvalidateCache (h : s.Ok) {f : Fin 256}
    (hs : s.step (.pagingInvalidateCache f) = some s') : s'.Ok := by
  obtain ⟨hok, hkeeps⟩ := h.ok.invalidate_spec f
  obtain rfl := Option.some.inj hs
  refine ⟨h.arty, h.qemu, hok, h.mem, ?_, ?_⟩
  · intro g p hp j k hw
    change update s.written f (fun _ _ => false) g j k = true at hw
    by_cases hg : g = f
    · rw [hg, update_self] at hw
      exact absurd hw (by simp)
    · rw [update_of_ne hg] at hw
      exact h.frame g p (hasFrame_of_keeps hkeeps hok hg hp) j k hw
  · intro g a a' hlast
    exact absurd hlast.symm (Option.some_ne_none _)

theorem Ok.store (h : s.Ok) {j : Fin 8} {k : Fin 512} {b : UInt8}
    (hs : s.step (.store j k b) = some s') : s'.Ok := by
  rw [Twins.step] at hs
  cases hl : s.last with
  | none =>
      rw [hl] at hs
      exact absurd hs (by simp)
  | some r =>
      obtain ⟨f, a, a'⟩ := r
      rw [hl] at hs
      obtain rfl := Option.some.inj hs
      obtain ⟨hat, rfl⟩ := h.last f a a' hl
      obtain ⟨hok, hkeeps, hframe, hat'⟩ := h.ok.store_spec hat (Page.setByte (s.arty.mem a) j k b)
      refine ⟨h.arty, h.qemu, hok, ?_, ?_, ?_⟩
      · intro c hc
        rw [setPage_outside _ _ hc, ← h.mem c hc]
        exact hkeeps.mem c hc
      · intro g p hp j' k' hw
        dsimp only at hw
        by_cases hg : g = f
        · subst hg
          rw [update_self] at hw
          rw [hok.hasFrame_unique hp hframe]
          change _ = update s.qemu.mem _ _ _ j' k'
          rw [update_self]
          simp only [Page.setByte]
          -- the byte that is stored, or one that was there before
          by_cases hjk : j' = j ∧ k' = k
          · rw [if_pos hjk, if_pos hjk]
          · rw [if_neg hjk, if_neg hjk]
            refine h.frame g _ hat.hasFrame j' k' ?_
            simpa [hjk] using hw
        · rw [update_of_ne hg] at hw
          rw [setPage_frame _ hg]
          exact h.frame g p (hasFrame_of_keeps hkeeps hok hg hp) j' k' hw
      · intro g c c' hlast
        obtain ⟨rfl, hrest⟩ := Prod.mk.inj (Option.some.inj hlast)
        obtain ⟨rfl, rfl⟩ := Prod.mk.inj hrest
        exact ⟨hat', rfl⟩

theorem Ok.setPage (h : s.Ok) {a : ℕ} {p : Page} (hs : s.step (.setPage a p) = some s') :
    s'.Ok := by
  rw [Twins.step] at hs
  split at hs
  · rename_i ha
    obtain rfl := Option.some.inj hs
    refine ⟨h.arty, h.qemu, h.ok.setPage a p, ?_, ?_, h.last⟩
    · intro c hc
      change update _ _ _ _ = update _ _ _ _
      by_cases hca : c = a
      · rw [hca, update_self, update_self]
      · rw [update_of_ne hca, update_of_ne hca]
        exact h.mem c hc
    · intro g q hq j k hw
      have hne : pagesStart + g.val ≠ a := by
        rintro rfl
        exact Paging.not_outside_frame g ha
      change q j k = update s.qemu.mem a p (pagesStart + g) j k
      rw [update_of_ne hne]
      exact h.frame g q ((Paging.hasFrame_setPage ha p).1 hq) j k hw
  · exact absurd hs (by simp)

/-- **Every run keeps the invariant.** -/
theorem Ok.run {ops : List Op} : ∀ {s s' : Twins}, s.Ok → s.run ops = some s' → s'.Ok := by
  induction ops with
  | nil =>
      intro s s' h hrun
      obtain rfl := Option.some.inj hrun
      exact h
  | cons op ops ih =>
      intro s s' h hrun
      rw [Twins.run, List.foldlM_cons] at hrun
      obtain ⟨s₁, h₁, hrest⟩ := Option.bind_eq_some_iff.1 hrun
      refine ih ?_ hrest
      cases op with
      | pagingRead f allocOnly => exact h.pagingRead h₁
      | pagingWrite f pageNo => exact h.pagingWrite h₁
      | pagingInvalidateCache f => exact h.pagingInvalidateCache h₁
      | store j k b => exact h.store h₁
      | setPage a p => exact h.setPage h₁

/-- **The frame cache agrees with the frame array**, whatever is evicted: no two slots hold the same
frame, and a frame that was written completely since it was last allocated or invalidated is read
with the same bytes on both machines. -/
theorem frames_agree (arty qemu : Paging) (harty : arty.platform = .arty)
    (hqemu : qemu.platform ≠ .arty) (hmem : ∀ a, Outside a → arty.mem a = qemu.mem a)
    (ops : List Op) (hrun : (start arty qemu).run ops = some s) :
    (∀ i j, s.arty.cacheSlots i = s.arty.cacheSlots j → s.arty.cacheSlots i ≠ -1 → i = j) ∧
    ∀ f, (∀ j k, s.written f j k = true) →
      (s.arty.pagingRead f false).2.mem (s.arty.pagingRead f false).1 =
        s.qemu.mem (pagesStart + f) := by
  have hstart : (start arty qemu).Ok := by
    refine ⟨harty, hqemu, arty.pagingInit_ok, hmem, ?_, ?_⟩
    · intro f p _ j k hw
      exact absurd hw (by simp [start])
    · intro f a a' hlast
      exact absurd hlast.symm (Option.some_ne_none _)
  have h := hstart.run hrun
  constructor
  · intro i j hij hne
    rcases h.ok.slot i with hi | ⟨h₀, h₁⟩
    · exact absurd hi hne
    · -- the frame in the slot
      obtain ⟨f, hf⟩ : ∃ f : Fin 256, s.arty.cacheSlots i = (f : ℕ) :=
        ⟨⟨(s.arty.cacheSlots i).toNat, by omega⟩, by simp only; omega⟩
      exact h.ok.valid i j f (Paging.frameIn_eq_some.2 hf) (Paging.frameIn_eq_some.2 (hij ▸ hf))
  · intro f hw
    obtain ⟨hok, -, hat, hsame⟩ := h.ok.pagingRead_spec f false
    obtain ⟨p, hp⟩ := s.arty.exists_hasFrame f
    rw [hok.hasFrame_unique hat.hasFrame (hsame rfl p hp)]
    funext j k
    exact h.frame f p hp j k (hw j k)

/-- Two frames are written to the same slot, so that the first one is swapped out. -/
def swapOut : List Op := [.pagingWrite 0 0x8005, .pagingWrite 1 0x8006]

/-- The frame that was swapped out agrees. -/
theorem frames_agree_swapOut :
    ∃ s, (start (Paging.board .arty fun _ => 0) (Paging.board .qemuLatest fun _ => 0)).run swapOut =
        some s ∧ (∀ j k, s.written 0 j k = true) ∧
      (s.arty.pagingRead (0 : Fin 256) false).2.mem (s.arty.pagingRead (0 : Fin 256) false).1 =
        s.qemu.mem (pagesStart + (0 : Fin 256)) := by
  have hrun : ((start (Paging.board .arty fun _ => 0) (Paging.board .qemuLatest fun _ => 0)).run
      swapOut).any (fun s => ∀ j k, s.written 0 j k = true) = true := by decide +kernel
  obtain ⟨s, hs, hw⟩ := (Option.any_eq_true _ _).1 hrun
  have hagree := frames_agree (Paging.board .arty fun _ => 0) (Paging.board .qemuLatest fun _ => 0)
    rfl Platform.noConfusion (fun _ _ => rfl) _ hs
  exact ⟨s, hs, of_decide_eq_true hw, hagree.2 0 (of_decide_eq_true hw)⟩

end Twins

end Egos
