/-
**Address spaces by software** (`earth/cpu_mmu.c`).

All processes run at the same addresses.  A table says which process owns each physical frame, and
at which page; to switch to another process, the pages of the old one are copied to its frames, and
the frames of the new one to its pages.

Main definitions:

* `Egos.Mmu` — the table, and the paging device underneath;
* `Egos.Mmu.mmuAlloc`, `Egos.Mmu.mmuFree`, `Egos.Mmu.softTlbMap`, `Egos.Mmu.softTlbSwitch`;
* `Egos.Mmu.call`, `Egos.Mmu.calls` — runs of the MMU, with any arguments;
* `Egos.Mmu.Private` — **the frames hold given contents**: those of the process that is switched in
  are at its pages, the others are kept by the paging device.

Main results:

* `Egos.Mmu.Private.softTlbSwitch` — switching keeps the contents of all frames;
* `Egos.Mmu.Private.mmuAlloc`, `Egos.Mmu.Private.softTlbMap`, `Egos.Mmu.Private.mmuFree`,
  `Egos.Mmu.Private.load`, `Egos.Mmu.Private.write` — the other operations change their own frame.
-/

import Egos.Paging
import Egos.Runs

set_option autoImplicit false

namespace Egos

open Function (update update_eq_self update_of_ne update_self)

/-- `struct frame_mapping` -/
structure FrameMapping where
  /-- Is the frame allocated? -/
  use : Bool
  /-- Which process owns the frame? -/
  pid : ℤ
  /-- Which virtual page is the frame mapped to? -/
  pageNo : ℕ
  deriving DecidableEq

/-- The table of the frames, with the paging device. -/
structure Mmu extends Paging where
  table : Fin 256 → FrameMapping
  currVmPid : ℤ

namespace Mmu

open Paging (pageAt Outside)

/-- `table[i].use && table[i].pid == pid` -/
def Owned (m : Mmu) (i : Fin 256) (pid : ℤ) : Prop :=
  (m.table i).use = true ∧ (m.table i).pid = pid

instance (m : Mmu) (i : Fin 256) (pid : ℤ) : Decidable (m.Owned i pid) :=
  inferInstanceAs (Decidable (_ ∧ _))

/-! ### The interface -/

/-- `mmu_alloc`, which returns the frame and the page where it is cached. -/
def mmuAlloc (m : Mmu) : Except String (Fin 256 × ℕ × Mmu) :=
  match (List.finRange 256).find? fun i => !(m.table i).use with
  | some i =>
      let (cachedAddr, p) := m.toPaging.pagingRead i true
      .ok (i, cachedAddr,
        { m with
          toPaging := p
          table := update m.table i { m.table i with use := true } })
  | none => .error "mmu_alloc: no more available frames"

/-- The body of the loop of `mmu_free`. -/
def freeFrame (pid : ℤ) (m : Mmu) (i : Fin 256) : Mmu :=
  if m.Owned i pid then
    { m with
      toPaging := m.toPaging.pagingInvalidateCache i
      table := update m.table i ⟨false, 0, 0⟩ }
  else m

/-- `mmu_free` -/
def mmuFree (m : Mmu) (pid : ℤ) : Mmu := (List.finRange 256).foldl (freeFrame pid) m

/-- `soft_tlb_map` -/
def softTlbMap (m : Mmu) (pid : ℤ) (pageNo : ℕ) (frameId : Fin 256) : Mmu :=
  { m with
    table := update m.table frameId
      { m.table frameId with pid := pid, pageNo := pageNo } }

/-- The body of the first loop of `soft_tlb_switch`. -/
def unmapFrame (m : Mmu) (i : Fin 256) : Mmu :=
  if m.Owned i m.currVmPid then
    { m with toPaging := m.toPaging.pagingWrite i (m.table i).pageNo }
  else m

/-- The body of the second loop of `soft_tlb_switch`. -/
def mapFrame (pid : ℤ) (m : Mmu) (i : Fin 256) : Mmu :=
  if m.Owned i pid then
    let (src, p) := m.toPaging.pagingRead i false
    { m with toPaging := p.setPage (pageAt (m.table i).pageNo) (p.mem src) }
  else m

/-- `soft_tlb_switch` -/
def softTlbSwitch (m : Mmu) (pid : ℤ) : Mmu :=
  if pid = m.currVmPid then m
  else
    let m := (List.finRange 256).foldl unmapFrame m
    let m := (List.finRange 256).foldl (mapFrame pid) m
    { m with currVmPid := pid }

/-! ### The calls of the MMU -/

/-- The calls. -/
inductive Call
  | mmuAlloc
  | softTlbMap (pid : ℤ) (pageNo : ℕ) (frameId : Fin 256)
  | mmuFree (pid : ℤ)
  | softTlbSwitch (pid : ℤ)

/-- The state after a call, unless there is no frame left. -/
def call (m : Mmu) : Call → Option Mmu
  | .mmuAlloc =>
      match m.mmuAlloc with
      | .ok (_, _, m) => some m
      | .error _ => none
  | .softTlbMap pid pageNo frameId => some (m.softTlbMap pid pageNo frameId)
  | .mmuFree pid => some (m.mmuFree pid)
  | .softTlbSwitch pid => some (m.softTlbSwitch pid)

/-- The state after a run of calls. -/
def calls (m : Mmu) (cs : List Call) : Option Mmu := cs.foldlM call m

/-- The MMU after `mmu_init`. -/
def init (p : Paging) : Mmu :=
  { p.pagingInit with table := fun _ => ⟨false, 0, 0⟩, currVmPid := -1 }

/-! ### The contents of the frames -/

/-- The pages at which processes are mapped: addresses of 32 bits, outside of the frames. -/
def UserPage (pageNo : ℕ) : Prop := pageNo < 2 ^ 20 ∧ Outside pageNo

theorem UserPage.pageAt {pageNo : ℕ} (h : UserPage pageNo) : pageAt pageNo = pageNo :=
  Nat.mod_eq_of_lt h.1

/-- What is true of the table at all times.  The pid 0 marks the frames that no process owns. -/
structure TableOk (m : Mmu) : Prop where
  /-- A process has at most one frame for a page. -/
  inj : ∀ i j pid, pid ≠ 0 → m.Owned i pid → m.Owned j pid →
    (m.table i).pageNo = (m.table j).pageNo → i = j
  page : ∀ i pid, pid ≠ 0 → m.Owned i pid → UserPage (m.table i).pageNo
  free : ∀ i, (m.table i).use = false → (m.table i).pid = 0

/-- **The frames hold `own`.** -/
structure Private (m : Mmu) (own : Fin 256 → Page) : Prop extends TableOk m where
  ok : m.toPaging.Ok
  curr : m.currVmPid ≠ 0
  /-- The process that is switched in has its frames at its pages. -/
  live : ∀ i, m.Owned i m.currVmPid → m.mem (m.table i).pageNo = own i
  /-- The paging device keeps the other ones. -/
  stored : ∀ i, (m.table i).use = true → (m.table i).pid ≠ m.currVmPid → m.HasFrame i (own i)

variable {m m' : Mmu} {own : Fin 256 → Page} {pid : ℤ}

theorem owned_congr (h : m'.table = m.table) (i : Fin 256) (pid : ℤ) :
    m'.Owned i pid ↔ m.Owned i pid := by
  rw [Owned, Owned, h]

/-! ### Switching -/

/-- The invariant of the first loop of `soft_tlb_switch`. -/
structure Unmapping (m₀ : Mmu) (own : Fin 256 → Page) (done : List (Fin 256)) (m : Mmu) : Prop where
  ok : m.toPaging.Ok
  platform : m.platform = m₀.platform
  table : m.table = m₀.table
  curr : m.currVmPid = m₀.currVmPid
  mem : ∀ a, Outside a → m.mem a = m₀.mem a
  stored : ∀ i, (m₀.table i).use = true → (m₀.table i).pid ≠ m₀.currVmPid ∨ i ∈ done →
    m.HasFrame i (own i)

theorem Unmapping.unmapFrame {m₀ : Mmu} (h₀ : m₀.Private own) {done : List (Fin 256)}
    (h : Unmapping m₀ own done m) (i : Fin 256) :
    Unmapping m₀ own (i :: done) (m.unmapFrame i) := by
  have hown := owned_congr h.table i m₀.currVmPid
  unfold Mmu.unmapFrame
  rw [h.curr]
  by_cases hi : m₀.Owned i m₀.currVmPid
  · have hpage := h₀.page i _ h₀.curr hi
    obtain ⟨hok, hkeeps, hframe⟩ := h.ok.pagingWrite_spec i (m.table i).pageNo
    rw [h.table] at hok hkeeps hframe
    rw [hpage.pageAt, h.mem _ hpage.2, h₀.live i hi] at hframe
    rw [if_pos (hown.2 hi), h.table]
    refine ⟨hok, hkeeps.platform.trans h.platform, rfl, rfl, ?_, ?_⟩
    · intro a ha
      exact (hkeeps.mem a ha).trans (h.mem a ha)
    · intro j hj hdone
      by_cases hji : j = i
      · rw [hji]
        exact hframe
      · refine hkeeps.frame j hji _ (h.stored j hj ?_)
        rcases hdone with hpid | hmem
        · exact Or.inl hpid
        · exact Or.inr ((List.mem_cons.1 hmem).resolve_left hji)
  · rw [if_neg (mt hown.1 hi)]
    refine ⟨h.ok, h.platform, h.table, h.curr, h.mem, ?_⟩
    intro j hj hdone
    refine h.stored j hj ?_
    rcases hdone with hpid | hmem
    · exact Or.inl hpid
    · rcases List.mem_cons.1 hmem with rfl | hmem
      · exact Or.inl fun hpid => hi ⟨hj, hpid⟩
      · exact Or.inr hmem

/-- After the first loop, the paging device has the contents of all frames. -/
theorem Private.unmap (h : m.Private own) (l : List (Fin 256)) (hl : ∀ i, i ∈ l) :
    Unmapping m own l (l.foldl Mmu.unmapFrame m) := by
  have hstart : Unmapping m own [] m := by
    refine ⟨h.ok, rfl, rfl, rfl, fun _ _ => rfl, ?_⟩
    intro i hi hdone
    exact h.stored i hi (hdone.resolve_right (by simp))
  have hend := Runs.foldl_done (f := Mmu.unmapFrame) (I := Unmapping m own)
    (fun _ i _ hm => hm.unmapFrame h i) l [] m hstart
  refine ⟨hend.ok, hend.platform, hend.table, hend.curr, hend.mem, ?_⟩
  intro i hi _
  exact hend.stored i hi (Or.inr (by simp [hl]))

/-- The invariant of the second loop of `soft_tlb_switch`. -/
structure Mapping (m₀ : Mmu) (own : Fin 256 → Page) (pid : ℤ) (done : List (Fin 256)) (m : Mmu) :
    Prop where
  ok : m.toPaging.Ok
  platform : m.platform = m₀.platform
  table : m.table = m₀.table
  stored : ∀ i, (m₀.table i).use = true → m.HasFrame i (own i)
  live : ∀ i ∈ done, m₀.Owned i pid → m.mem (m₀.table i).pageNo = own i

theorem Mapping.mapFrame {m₀ : Mmu} (h₀ : m₀.TableOk) (hpid : pid ≠ 0) {done : List (Fin 256)}
    (h : Mapping m₀ own pid done m) (i : Fin 256) :
    Mapping m₀ own pid (i :: done) (m.mapFrame pid i) := by
  have hown := owned_congr h.table i pid
  unfold Mmu.mapFrame
  by_cases hi : m₀.Owned i pid
  · have hpage := h₀.page i pid hpid hi
    obtain ⟨hok, hkeeps, hat, hsame⟩ := h.ok.pagingRead_spec i false
    rw [if_pos (hown.2 hi), h.table]
    generalize hread : m.toPaging.pagingRead i false = r at hok hkeeps hat hsame ⊢
    obtain ⟨src, p⟩ := r
    simp only at hok hkeeps hat hsame ⊢
    rw [hpage.pageAt]
    -- the frame that is read has the contents it is to have
    have hstored : ∀ j, (m₀.table j).use = true → p.HasFrame j (own j) := by
      intro j hj
      by_cases hji : j = i
      · rw [hji]
        exact hsame trivial _ (h.stored i hi.1)
      · exact hkeeps.frame j hji _ (h.stored j hj)
    have hsrc : p.mem src = own i := hok.hasFrame_unique hat.hasFrame (hstored i hi.1)
    refine ⟨hok.setPage _ _, hkeeps.platform.trans h.platform, rfl, ?_, ?_⟩
    · intro j hj
      exact (Paging.hasFrame_setPage hpage.2 _).2 (hstored j hj)
    · intro j hj hj'
      change update p.mem (m₀.table i).pageNo (p.mem src) (m₀.table j).pageNo = own j
      by_cases hji : j = i
      · rw [hji, update_self, hsrc]
      · have hne : (m₀.table j).pageNo ≠ (m₀.table i).pageNo := by
          intro he
          exact hji (h₀.inj j i pid hpid hj' hi he)
        rw [update_of_ne hne, hkeeps.mem _ (h₀.page j pid hpid hj').2]
        exact h.live j ((List.mem_cons.1 hj).resolve_left hji) hj'
  · rw [if_neg (mt hown.1 hi)]
    refine ⟨h.ok, h.platform, h.table, h.stored, ?_⟩
    intro j hj hj'
    rcases List.mem_cons.1 hj with rfl | hj
    · exact absurd hj' hi
    · exact h.live j hj hj'

/-- After the second loop, the frames of the process are at its pages. -/
theorem Mapping.map {m₀ : Mmu} (h₀ : m₀.TableOk) (hpid : pid ≠ 0) (hok : m₀.toPaging.Ok)
    (hstored : ∀ i, (m₀.table i).use = true → m₀.HasFrame i (own i)) (l : List (Fin 256))
    (hl : ∀ i, i ∈ l) : Mapping m₀ own pid l (l.foldl (Mmu.mapFrame pid) m₀) := by
  have hend := Runs.foldl_done (f := Mmu.mapFrame pid) (I := Mapping m₀ own pid)
    (fun _ i _ hm => hm.mapFrame h₀ hpid i) l [] m₀ ⟨hok, rfl, rfl, hstored, by simp⟩
  refine ⟨hend.ok, hend.platform, hend.table, hend.stored, ?_⟩
  intro i hi
  exact hend.live i (by simp [hl])

/-- The table is as before. -/
theorem TableOk.congr (h : m.TableOk) (ht : m'.table = m.table) : m'.TableOk := by
  have hown := owned_congr ht
  refine ⟨?_, ?_, ?_⟩
  · intro i j p hp hi hj
    rw [ht]
    exact h.inj i j p hp ((hown i p).1 hi) ((hown j p).1 hj)
  · intro i p hp hi
    rw [ht]
    exact h.page i p hp ((hown i p).1 hi)
  · intro i
    rw [ht]
    exact h.free i

/-- **Switching keeps the contents of all frames.** -/
theorem Private.softTlbSwitch (h : m.Private own) (hpid : pid ≠ 0) :
    (m.softTlbSwitch pid).Private own ∧ (m.softTlbSwitch pid).currVmPid = pid ∧
      (m.softTlbSwitch pid).table = m.table ∧ (m.softTlbSwitch pid).platform = m.platform := by
  unfold Mmu.softTlbSwitch
  by_cases hcurr : pid = m.currVmPid
  · rw [if_pos hcurr]
    exact ⟨h, hcurr.symm, rfl, rfl⟩
  · rw [if_neg hcurr]
    dsimp only
    have h₁ := h.unmap (List.finRange 256) List.mem_finRange
    generalize (List.finRange 256).foldl Mmu.unmapFrame m = m₁ at h₁ ⊢
    have hstored : ∀ i, (m₁.table i).use = true → m₁.HasFrame i (own i) := by
      intro i hi
      rw [h₁.table] at hi
      exact h₁.stored i hi (Or.inr (List.mem_finRange i))
    have h₂ := Mapping.map (h.toTableOk.congr h₁.table) hpid h₁.ok hstored (List.finRange 256)
      List.mem_finRange
    generalize (List.finRange 256).foldl (Mmu.mapFrame pid) m₁ = m₂ at h₂ ⊢
    have htable : m₂.table = m.table := h₂.table.trans h₁.table
    refine ⟨⟨h.toTableOk.congr htable, h₂.ok, hpid, ?_, ?_⟩, rfl, htable,
      h₂.platform.trans h₁.platform⟩
    · intro i hi
      change m₂.mem (m₂.table i).pageNo = own i
      rw [h₂.table]
      exact h₂.live i (List.mem_finRange i) ((owned_congr h₂.table i pid).1 hi)
    · intro i hi _
      refine h₂.stored i ?_
      rw [← h₂.table]
      exact hi

/-! ### Allocating, mapping and freeing frames -/

/-- What `mmu_alloc` does if it succeeds. -/
theorem mmuAlloc_eq {i : Fin 256} {a : ℕ} (h : m.mmuAlloc = .ok (i, a, m')) :
    (m.table i).use = false ∧ m.toPaging.pagingRead i true = (a, m'.toPaging) ∧
      m'.table = update m.table i { m.table i with use := true } ∧
      m'.currVmPid = m.currVmPid := by
  unfold Mmu.mmuAlloc at h
  cases hfind : (List.finRange 256).find? fun i => !(m.table i).use with
  | none =>
      rw [hfind] at h
      exact absurd h (by simp)
  | some j =>
      rw [hfind] at h
      simp only [Except.ok.injEq, Prod.mk.injEq] at h
      obtain ⟨rfl, rfl, rfl⟩ := h
      exact ⟨by simpa using List.find?_some hfind, rfl, rfl, rfl⟩

/-- **The contents after a change to one frame**, whose process is not switched in. -/
theorem Private.change {i : Fin 256} {p : Page} (h : m.Private own) (hok : m'.toPaging.Ok)
    (hkeeps : m.Keeps i m'.toPaging) (hcurr : m'.currVmPid = m.currVmPid)
    (hother : ∀ j, j ≠ i → m'.table j = m.table j) (hpid : (m'.table i).pid ≠ m.currVmPid)
    (hfree : (m'.table i).use = false → (m'.table i).pid = 0)
    (hpage : ∀ q, q ≠ 0 → m'.Owned i q → UserPage (m'.table i).pageNo ∧
      ∀ j, j ≠ i → m.Owned j q → (m.table j).pageNo ≠ (m'.table i).pageNo)
    (hframe : (m'.table i).use = true → m'.HasFrame i p) :
    m'.Private (update own i p) := by
  have hown : ∀ j q, j ≠ i → (m'.Owned j q ↔ m.Owned j q) := by
    intro j q hji
    rw [Owned, Owned, hother j hji]
  refine ⟨⟨?_, ?_, ?_⟩, hok, ?_, ?_, ?_⟩
  · intro j k q hq hj hk hjk
    by_cases hji : j = i
    · by_cases hki : k = i
      · rw [hji, hki]
      · rw [hji] at hj hjk
        rw [hother k hki] at hjk
        exact absurd hjk.symm ((hpage q hq hj).2 k hki ((hown k q hki).1 hk))
    · by_cases hki : k = i
      · rw [hki] at hk hjk
        rw [hother j hji] at hjk
        exact absurd hjk ((hpage q hq hk).2 j hji ((hown j q hji).1 hj))
      · rw [hother j hji, hother k hki] at hjk
        exact h.inj j k q hq ((hown j q hji).1 hj) ((hown k q hki).1 hk) hjk
  · intro j q hq hj
    by_cases hji : j = i
    · rw [hji] at hj ⊢
      exact (hpage q hq hj).1
    · rw [hother j hji]
      exact h.page j q hq ((hown j q hji).1 hj)
  · intro j hj
    by_cases hji : j = i
    · rw [hji] at hj ⊢
      exact hfree hj
    · rw [hother j hji] at hj ⊢
      exact h.free j hj
  · rw [hcurr]
    exact h.curr
  · intro j hj
    rw [hcurr] at hj
    have hji : j ≠ i := by
      rintro rfl
      exact hpid hj.2
    have hj' := (hown j _ hji).1 hj
    rw [hother j hji, update_of_ne hji, hkeeps.mem _ (h.page j _ h.curr hj').2]
    exact h.live j hj'
  · intro j hj hjpid
    by_cases hji : j = i
    · rw [hji] at hj ⊢
      rw [update_self]
      exact hframe hj
    · rw [hother j hji] at hj hjpid
      rw [hcurr] at hjpid
      rw [update_of_ne hji]
      exact hkeeps.frame j hji _ (h.stored j hj hjpid)

/-- **A frame is allocated**: it holds what is found at the page that is returned. -/
theorem Private.mmuAlloc {i : Fin 256} {a : ℕ} (h : m.Private own)
    (ha : m.mmuAlloc = .ok (i, a, m')) :
    m'.Private (update own i (m'.mem a)) ∧ m'.FrameAt i a ∧ m'.Owned i 0 := by
  obtain ⟨huse, hread, htable, hcurr⟩ := mmuAlloc_eq ha
  obtain ⟨hok, hkeeps, hat, -⟩ := h.ok.pagingRead_spec i true
  rw [hread] at hok hkeeps hat
  have hzero : m'.Owned i 0 := by
    rw [Owned, htable, update_self]
    exact ⟨rfl, h.free i huse⟩
  refine ⟨h.change hok hkeeps hcurr ?_ ?_ ?_ ?_ (fun _ => hat.hasFrame), hat, hzero⟩
  · intro j hj
    rw [htable, update_of_ne hj]
  · rw [hzero.2]
    exact h.curr.symm
  · intro hfalse
    rw [hzero.1] at hfalse
    exact absurd hfalse (by simp)
  · intro q hq hown
    exact absurd (hown.2.symm.trans hzero.2) hq

/-- **A store to a frame in memory**, whose process is not switched in. -/
theorem Private.load {i : Fin 256} {a : ℕ} (h : m.Private own) (hat : m.FrameAt i a)
    (hpid : (m.table i).pid ≠ m.currVmPid) (p : Page) :
    ({ m with toPaging := m.toPaging.setPage a p } : Mmu).Private (update own i p) ∧
      (m.toPaging.setPage a p).FrameAt i a := by
  obtain ⟨hok, hkeeps, hframe, hat'⟩ := h.ok.store_spec hat p
  refine ⟨h.change hok hkeeps rfl (fun _ _ => rfl) hpid (h.free i) ?_ (fun _ => hframe), hat'⟩
  intro q hq hown
  refine ⟨h.page i q hq hown, ?_⟩
  intro j hji hj hpage
  exact hji (h.inj j i q hq hj hown hpage)

/-- **A frame that no process owns is mapped.** -/
theorem Private.softTlbMap {i : Fin 256} {pageNo : ℕ} (h : m.Private own) (hi : m.Owned i 0)
    (hcurr : pid ≠ m.currVmPid) (hpage : UserPage pageNo)
    (hfresh : ∀ j, m.Owned j pid → (m.table j).pageNo ≠ pageNo) :
    (m.softTlbMap pid pageNo i).Private own := by
  have hself : (m.softTlbMap pid pageNo i).table i =
      { m.table i with pid := pid, pageNo := pageNo } :=
    update_self _ _ _
  have hframe : m.HasFrame i (own i) := by
    refine h.stored i hi.1 ?_
    rw [hi.2]
    exact h.curr.symm
  rw [← update_eq_self i own]
  refine h.change h.ok (Paging.Keeps.refl _ i) rfl (fun j hj => update_of_ne hj _ _)
    ?_ ?_ ?_ (fun _ => hframe)
  · rw [hself]
    exact hcurr
  · intro hfalse
    rw [hself] at hfalse
    exact absurd (hi.1.symm.trans hfalse) (by simp)
  · intro q _ hown
    rw [Owned, hself] at hown
    rw [hself]
    refine ⟨hpage, ?_⟩
    intro j _ hj
    have hq : pid = q := hown.2
    rw [← hq] at hj
    exact hfresh j hj

theorem freeFrame_table (m : Mmu) (pid : ℤ) (i j : Fin 256) :
    (m.freeFrame pid i).table j =
      if j = i ∧ m.Owned i pid then ⟨false, 0, 0⟩ else m.table j := by
  unfold Mmu.freeFrame
  by_cases hi : m.Owned i pid
  · rw [if_pos hi]
    by_cases hj : j = i
    · rw [if_pos ⟨hj, hi⟩, hj]
      exact update_self _ _ _
    · rw [if_neg (fun hc => hj hc.1)]
      exact update_of_ne hj _ _
  · rw [if_neg hi, if_neg (fun hc => hi hc.2)]

theorem Private.freeFrame (h : m.Private own) (pid : ℤ) (i : Fin 256) :
    (m.freeFrame pid i).Private own ∧ (m.freeFrame pid i).currVmPid = m.currVmPid := by
  by_cases hi : m.Owned i pid
  · obtain ⟨hok, hkeeps⟩ := h.ok.invalidate_spec i
    have hself : (m.freeFrame pid i).table i = ⟨false, 0, 0⟩ := by
      rw [freeFrame_table, if_pos ⟨rfl, hi⟩]
    have hpaging : (m.freeFrame pid i).toPaging = m.toPaging.pagingInvalidateCache i ∧
        (m.freeFrame pid i).currVmPid = m.currVmPid := by
      unfold Mmu.freeFrame
      rw [if_pos hi]
      exact ⟨rfl, rfl⟩
    refine ⟨?_, hpaging.2⟩
    rw [← update_eq_self i own]
    refine h.change (by rw [hpaging.1]; exact hok) (by rw [hpaging.1]; exact hkeeps) hpaging.2
      ?_ ?_ ?_ ?_ ?_
    · intro j hj
      rw [freeFrame_table, if_neg (fun hc => hj hc.1)]
    · rw [hself]
      exact h.curr.symm
    · intro _
      rw [hself]
    · intro q _ hown
      rw [Owned, hself] at hown
      exact absurd hown.1 (by simp)
    · intro huse
      rw [hself] at huse
      exact absurd huse (by simp)
  · have hsame : m.freeFrame pid i = m := by
      unfold Mmu.freeFrame
      rw [if_neg hi]
    rw [hsame]
    exact ⟨h, rfl⟩

/-- **The frames of a process are freed.** -/
theorem Private.mmuFree (h : m.Private own) (pid : ℤ) :
    (m.mmuFree pid).Private own ∧ (m.mmuFree pid).currVmPid = m.currVmPid := by
  refine Runs.foldl_done (f := Mmu.freeFrame pid)
    (I := fun _ m' => m'.Private own ∧ m'.currVmPid = m.currVmPid) ?_ (List.finRange 256) [] m
    ⟨h, rfl⟩
  rintro - i m' ⟨h', hcurr'⟩
  obtain ⟨h₁, hcurr₁⟩ := h'.freeFrame pid i
  exact ⟨h₁, hcurr₁.trans hcurr'⟩

theorem foldl_freeFrame_table (m : Mmu) (pid : ℤ) (l : List (Fin 256)) (j : Fin 256) :
    (l.foldl (Mmu.freeFrame pid) m).table j =
      if j ∈ l ∧ m.Owned j pid then ⟨false, 0, 0⟩ else m.table j := by
  have hend : ∀ j, (l.foldl (Mmu.freeFrame pid) m).table j =
      if j ∈ l.reverse ++ [] ∧ m.Owned j pid then ⟨false, 0, 0⟩ else m.table j := by
    refine Runs.foldl_done (f := Mmu.freeFrame pid)
      (I := fun done m' => ∀ j, m'.table j =
        if j ∈ done ∧ m.Owned j pid then ⟨false, 0, 0⟩ else m.table j) ?_ l [] m (by simp)
    intro done i m' h j
    rw [freeFrame_table, h j]
    by_cases hji : j = i
    · subst hji
      by_cases hown : m.Owned j pid
      · by_cases hdone : j ∈ done
        · simp [hdone, hown]
        · have hown' : m'.Owned j pid := by
            rw [Owned, h j, if_neg (fun hc => hdone hc.1)]
            exact hown
          simp [hown, hown']
      · have hown' : ¬ m'.Owned j pid := by
          rw [Owned, h j, if_neg (fun hc => hown hc.2)]
          exact hown
        simp [hown, hown']
    · simp [hji]
  rw [hend j]
  simp

/-- The table after `mmu_free`. -/
theorem mmuFree_table (m : Mmu) (pid : ℤ) (j : Fin 256) :
    (m.mmuFree pid).table j = if m.Owned j pid then ⟨false, 0, 0⟩ else m.table j := by
  rw [Mmu.mmuFree, foldl_freeFrame_table]
  simp only [List.mem_finRange, true_and]

/-- **The process that is switched in writes** to one of its pages. -/
theorem Private.write {i : Fin 256} (h : m.Private own) (hi : m.Owned i m.currVmPid) (p : Page) :
    ({ m with toPaging := m.toPaging.setPage (m.table i).pageNo p } : Mmu).Private
      (update own i p) := by
  have hpage := h.page i _ h.curr hi
  refine ⟨⟨h.inj, h.page, h.free⟩, h.ok.setPage _ _, h.curr, ?_, ?_⟩
  · intro j hj
    change update m.mem (m.table i).pageNo p (m.table j).pageNo = _
    by_cases hji : j = i
    · rw [hji, update_self, update_self]
    · have hne : (m.table j).pageNo ≠ (m.table i).pageNo := by
        intro he
        exact hji (h.inj j i _ h.curr hj hi he)
      rw [update_of_ne hne, update_of_ne hji]
      exact h.live j hj
  · intro j hj hjpid
    have hji : j ≠ i := by
      rintro rfl
      exact hjpid hi.2
    rw [update_of_ne hji]
    exact (Paging.hasFrame_setPage hpage.2 p).2 (h.stored j hj hjpid)

end Mmu

end Egos
