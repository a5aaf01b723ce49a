/-
**The loader reads the disk.**

The blocks of a binary are on the disk on which the paging device keeps its frames.  The loader of
the kernel reads them itself, and that of `sys_proc` asks the file server for them by messages, so
that other processes run in the meantime and frames are swapped.  Nothing of this writes to the
files: what the loader does is what it would do with the blocks that the disk had before.

Main definitions:

* `Egos.Paging.Spares` — the part of the disk behind the frames is not written to;
* `Egos.DiskReader` — a reader of the disk;
* `Egos.Mmu.Event`, `Egos.Mmu.events` — what happens to the memory and the disk;
* `Egos.Mmu.Event.Proper` — the conditions under which the system lets it happen.

Main results:

* `Egos.elfLoad_congr` — `elf_load` with two readers that agree as long as the files are kept;
* `Egos.DiskReader.elfLoad_eq` — **reading the disk meanwhile is reading it before**;
* `Egos.Mmu.events_spares` — **no run writes to the files**;
* `Egos.Mmu.events_private` — the address spaces stay private.
-/

import Egos.Elf
import Egos.Runs

set_option autoImplicit false

namespace Egos

open Paging (pagesStart blockOf)

/-! ### The disk behind the frames -/

/-- **The part of the disk behind the frames is not written to**, up to the blocks at which an empty
slot is evicted. -/
structure Paging.Spares (s s' : Paging) : Prop where
  ok : s'.Ok
  platform : s'.platform = s.platform
  files : ∀ b, 2048 ≤ b → b < 8388600 → s'.disk b = s.disk b

namespace Paging

variable {s s' s'' : Paging}

theorem Ok.spares (hs : s.Ok) : s.Spares s := ⟨hs, rfl, fun _ _ _ => rfl⟩

theorem Spares.trans (h : s.Spares s') (h' : s'.Spares s'') : s.Spares s'' :=
  ⟨h'.ok, h'.platform.trans h.platform,
    fun b hb hb' => (h'.files b hb hb').trans (h.files b hb hb')⟩

theorem Ok.congr (hs : s.Ok) (h : s'.cacheSlots = s.cacheSlots) : s'.Ok := by
  refine ⟨fun i => ?_, fun i j k hi => ?_⟩
  · rw [h]
    exact hs.slot i
  · have htag : s'.cache.tag = s.cache.tag := by
      funext i
      exact congrArg frameIn (congrFun h i)
    rw [htag] at hi ⊢
    exact hs.valid i j k hi

theorem Spares.setPage (h : s.Spares s') (a : ℕ) (p : Page) : s.Spares (s'.setPage a p) :=
  ⟨h.ok.setPage a p, h.platform, h.files⟩

/-- A slot is evicted to the blocks of its frame, or to those of an empty slot. -/
theorem Ok.disk_cacheEviction (hs : s.Ok) (b : ℕ) (hb : 2048 ≤ b) (hb' : b < 8388600) :
    s.cacheEviction.2.disk b = s.disk b := by
  have hblock : blockOf (toUint (s.cacheSlots s.evictIdx)) + 8 ≤ 2048 ∨
      8388600 ≤ blockOf (toUint (s.cacheSlots s.evictIdx)) := by
    rcases hs.slot s.evictIdx with h | ⟨h₀, h₁⟩
    · rw [h, blockOf_empty]
      exact Or.inr le_rfl
    · left
      simp only [blockOf, toUint]
      omega
  refine dif_neg fun h => ?_
  change blockOf (toUint (s.cacheSlots s.evictIdx)) ≤ b ∧
    b < blockOf (toUint (s.cacheSlots s.evictIdx)) + 8 at h
  omega

theorem Ok.pagingRead_spares (hs : s.Ok) (f : Fin 256) (allocOnly : Bool) :
    s.Spares (s.pagingRead f allocOnly).2 := by
  obtain ⟨hok, hkeeps, -⟩ := hs.pagingRead_spec f allocOnly
  refine ⟨hok, hkeeps.platform, fun b hb hb' => ?_⟩
  by_cases harty : s.platform = .arty
  · rcases hs.pagingRead_cases harty f allocOnly with ⟨i, -, heq⟩ | ⟨-, i, s₁, hroom, heq⟩
    · rw [heq]
    · have hdisk : s₁.disk b = s.disk b := by
        rcases hroom with ⟨-, rfl⟩ | ⟨-, -, rfl⟩
        · rfl
        · exact hs.disk_cacheEviction b hb hb'
      rw [heq]
      cases allocOnly <;> exact hdisk
  · unfold pagingRead
    rw [if_pos harty]

theorem Ok.pagingWrite_spares (hs : s.Ok) (f : Fin 256) (pageNo : ℕ) :
    s.Spares (s.pagingWrite f pageNo) := by
  obtain ⟨hok, hkeeps, -⟩ := hs.pagingWrite_spec f pageNo
  refine ⟨hok, hkeeps.platform, fun b hb hb' => ?_⟩
  by_cases harty : s.platform = .arty
  · rcases hs.pagingWrite_cases harty f pageNo with ⟨i, -, heq⟩ | ⟨-, heq⟩
    · rw [heq]
      rfl
    · rw [heq]
      exact hs.disk_cacheEviction b hb hb'
  · unfold pagingWrite
    rw [if_pos harty]
    rfl

end Paging

namespace Mmu

variable {m m' : Mmu}

/-- A loop over frames, each of which leaves the files alone. -/
theorem spares_foldl {f : Mmu → Fin 256 → Mmu}
    (h : ∀ (m : Mmu) i, m.toPaging.Ok → m.toPaging.Spares (f m i).toPaging) :
    ∀ (l : List (Fin 256)) {m : Mmu}, m.toPaging.Ok →
      m.toPaging.Spares (l.foldl f m).toPaging := by
  intro l
  induction l with
  | nil => exact fun hok => hok.spares
  | cons i l ih =>
      intro m hok
      exact (h m i hok).trans (ih (h m i hok).ok)

theorem spares_unmapFrame (m : Mmu) (i : Fin 256) (hok : m.toPaging.Ok) :
    m.toPaging.Spares (m.unmapFrame i).toPaging := by
  unfold unmapFrame
  split
  · exact hok.pagingWrite_spares i _
  · exact hok.spares

theorem spares_mapFrame (pid : ℤ) (m : Mmu) (i : Fin 256) (hok : m.toPaging.Ok) :
    m.toPaging.Spares (m.mapFrame pid i).toPaging := by
  unfold mapFrame
  split
  · exact (hok.pagingRead_spares i false).setPage _ _
  · exact hok.spares

theorem spares_freeFrame (pid : ℤ) (m : Mmu) (i : Fin 256) (hok : m.toPaging.Ok) :
    m.toPaging.Spares (m.freeFrame pid i).toPaging := by
  unfold freeFrame
  split
  · exact ⟨(hok.invalidate_spec i).1, rfl, fun _ _ _ => rfl⟩
  · exact hok.spares

theorem spares_softTlbSwitch (hok : m.toPaging.Ok) (pid : ℤ) :
    m.toPaging.Spares (m.softTlbSwitch pid).toPaging := by
  unfold softTlbSwitch
  generalize List.finRange 256 = l
  split
  · exact hok.spares
  · have hunmap := spares_foldl spares_unmapFrame l hok
    exact hunmap.trans (spares_foldl (spares_mapFrame pid) l hunmap.ok)

theorem spares_mmuAlloc {i : Fin 256} {a : ℕ} (hok : m.toPaging.Ok)
    (h : m.mmuAlloc = .ok (i, a, m')) : m.toPaging.Spares m'.toPaging := by
  obtain ⟨-, hread, -⟩ := mmuAlloc_eq h
  have hspares := hok.pagingRead_spares i true
  rwa [hread] at hspares

/-- **A call of the MMU** leaves the files alone. -/
theorem spares_call {c : Call} (hok : m.toPaging.Ok) (hc : m.call c = some m') :
    m.toPaging.Spares m'.toPaging := by
  cases c with
  | mmuAlloc =>
      simp only [call] at hc
      split at hc
      · rename_i halloc
        obtain rfl := Option.some.inj hc
        exact spares_mmuAlloc hok halloc
      · simp at hc
  | softTlbMap pid pageNo i =>
      obtain rfl := Option.some.inj hc
      exact hok.spares
  | mmuFree pid =>
      obtain rfl := Option.some.inj hc
      exact spares_foldl (spares_freeFrame pid) (List.finRange 256) hok
  | softTlbSwitch pid =>
      obtain rfl := Option.some.inj hc
      exact spares_softTlbSwitch hok pid

/-- **An act of another process** leaves the files alone. -/
theorem spares_act (hok : m.toPaging.Ok) (a : VmAct) :
    m.toPaging.Spares (a.run m).toPaging := by
  cases a with
  | softTlbSwitch pid => exact spares_softTlbSwitch hok pid
  | write i f =>
      unfold VmAct.run
      dsimp only
      split
      · exact hok.spares.setPage _ _
      · exact hok.spares

theorem spares_acts (acts : List VmAct) :
    ∀ {m : Mmu}, m.toPaging.Ok → m.toPaging.Spares (acts.foldl VmAct.run m).toPaging := by
  induction acts with
  | nil => exact fun hok => hok.spares
  | cons a acts ih =>
      intro m hok
      have ha := spares_act hok a
      exact ha.trans (ih ha.ok)

end Mmu

/-! ### Readers of the disk -/

/-- A reader leaves the files alone. -/
def Reader.Spares (reader : Reader) : Prop :=
  ∀ n (m : Mmu), m.toPaging.Ok → m.toPaging.Spares (reader n m).1.toPaging

/-- Two readers deliver the same first `N` blocks as long as the files are those of `m`. -/
def Reader.Agrees (m : Mmu) (N : ℕ) (reader reader' : Reader) : Prop :=
  ∀ n < N, ∀ m₁ : Mmu, m.toPaging.Spares m₁.toPaging → reader n m₁ = reader' n m₁

/-- **A reader of the disk**: what other processes do until a block is read from the disk and then
until it has arrived, and the block, on the disk as it is. -/
structure DiskReader where
  before : ℕ → List VmAct
  after : ℕ → List VmAct
  block : (ℕ → Block) → ℕ → Block

namespace DiskReader

variable {r : DiskReader} {m m₁ : Mmu} {N : ℕ} {pid : ℤ}

/-- The reader, for the loader. -/
def read (r : DiskReader) : Reader := fun n m =>
  let m := (r.before n).foldl VmAct.run m
  ((r.after n).foldl VmAct.run m, r.block m.disk n)

/-- What happens while a block is fetched. -/
def meanwhile (r : DiskReader) (n : ℕ) : List VmAct := r.before n ++ r.after n

/-- For its first `N` blocks, the reader does not look at anything but the files. -/
def Local (r : DiskReader) (disk : ℕ → Block) (N : ℕ) : Prop :=
  ∀ disk', (∀ b, 2048 ≤ b → b < 8388600 → disk' b = disk b) →
    ∀ n < N, r.block disk' n = r.block disk n

theorem read_fst (r : DiskReader) (n : ℕ) (m : Mmu) :
    (r.read n m).1 = (r.meanwhile n).foldl VmAct.run m := by
  rw [meanwhile, List.foldl_append]
  rfl

theorem read_spares (r : DiskReader) : r.read.Spares := by
  intro n m hok
  rw [read_fst]
  exact Mmu.spares_acts (r.meanwhile n) hok

theorem read_exchanges (hlive : ∀ n, ∀ b ∈ r.meanwhile n, b.Live pid) : r.read.Exchanges pid :=
  fun n m => ⟨r.meanwhile n, hlive n, r.read_fst n m⟩

/-- **The blocks may as well be read beforehand.** -/
theorem read_agrees (hlocal : r.Local m.disk N) :
    Reader.Agrees m N r.read (exchange r.meanwhile (r.block m.disk)) := by
  intro n hn m₁ h
  have hbefore := h.trans (Mmu.spares_acts (r.before n) h.ok)
  exact Prod.ext (r.read_fst n m₁) (hlocal _ hbefore.files n hn)

end DiskReader

/-! ### The loader -/

/-- The blocks of the segment are among the first `N`. -/
def ProgramHeader.Inside (ph : ProgramHeader) (N : ℕ) : Prop := ph.pOffset / 512 + ph.nblocks ≤ N

section Loader

variable {m m₁ m' : Mmu} {pid : ℤ} {reader reader' : Reader} {N : ℕ} {st st' : Loading}

theorem Loading.spares_newPage (hok : st.mmu.toPaging.Ok) {a : ℕ}
    (h : st.newPage pid a = some st') : st.mmu.toPaging.Spares st'.mmu.toPaging := by
  unfold Loading.newPage at h
  split at h
  · rename_i halloc
    have hspares := Mmu.spares_mmuAlloc hok halloc
    obtain rfl := Option.some.inj h
    exact hspares
  · simp at h

theorem Loading.spares_newCodePage (hok : st.mmu.toPaging.Ok) (h : st.newCodePage pid = some st') :
    st.mmu.toPaging.Spares st'.mmu.toPaging := by
  obtain ⟨st₁, h₁, rfl⟩ := Option.map_eq_some_iff.1 h
  have hspares := Loading.spares_newPage hok h₁
  exact hspares

/-- The page for a block. -/
theorem Loading.spares_page (hok : st.mmu.toPaging.Ok) {n : ℕ}
    (h : (if 512 * n % 4096 = 0 then st.newCodePage pid else some st) = some st') :
    st.mmu.toPaging.Spares st'.mmu.toPaging := by
  split at h
  · exact Loading.spares_newCodePage hok h
  · obtain rfl := Option.some.inj h
    exact hok.spares

theorem Loading.spares_fetch (hreader : reader.Spares) {blockOffset n : ℕ} {block : Block}
    (h : m.toPaging.Spares st.mmu.toPaging)
    (hst : st.fetch pid reader blockOffset n = some (st', block)) :
    m.toPaging.Spares st'.mmu.toPaging := by
  obtain ⟨st₁, h₁, heq⟩ := Option.map_eq_some_iff.1 hst
  obtain ⟨rfl, rfl⟩ := Prod.mk.inj heq
  have hpage := h.trans (Loading.spares_page h.ok h₁)
  exact hpage.trans (hreader (blockOffset + n) st₁.mmu hpage.ok)

theorem Loading.spares_loadBlock (hreader : reader.Spares) {blockOffset n : ℕ}
    (h : m.toPaging.Spares st.mmu.toPaging)
    (hst : st.loadBlock pid reader blockOffset n = some st') :
    m.toPaging.Spares st'.mmu.toPaging := by
  obtain ⟨⟨st₁, block⟩, h₁, rfl⟩ := Option.map_eq_some_iff.1 hst
  exact (Loading.spares_fetch hreader h h₁).setPage _ _

/-- The same block is fetched. -/
theorem Loading.fetch_congr (hagree : Reader.Agrees m N reader reader') {blockOffset n : ℕ}
    (hn : blockOffset + n < N) (h : m.toPaging.Spares st.mmu.toPaging) :
    st.fetch pid reader blockOffset n = st.fetch pid reader' blockOffset n := by
  unfold Loading.fetch
  refine Option.map_congr fun st₁ h₁ => ?_
  rw [hagree _ hn st₁.mmu (h.trans (Loading.spares_page h.ok h₁))]

theorem Loading.loadBlock_congr (hagree : Reader.Agrees m N reader reader') {blockOffset n : ℕ}
    (hn : blockOffset + n < N) (h : m.toPaging.Spares st.mmu.toPaging) :
    st.loadBlock pid reader blockOffset n = st.loadBlock pid reader' blockOffset n := by
  unfold Loading.loadBlock
  rw [Loading.fetch_congr hagree hn h]

/-- **`load_app`** does the same. -/
theorem loadApp_congr (hreader : reader.Spares) (hagree : Reader.Agrees m N reader reader')
    (h : m.toPaging.Spares m₁.toPaging) (argc : ℕ) (argv : Option (ℕ → UInt8)) {ph : ProgramHeader}
    (hph : ph.Inside N) :
    loadApp pid reader argc argv ph m₁ = loadApp pid reader' argc argv ph m₁ := by
  have hloop := Runs.foldlM_congr_inv
    (f := Loading.loadBlock pid reader (ph.pOffset / 512))
    (g := Loading.loadBlock pid reader' (ph.pOffset / 512))
    (I := fun st => m.toPaging.Spares st.mmu.toPaging)
    (fun _ _ _ => Loading.spares_loadBlock hreader) (List.range ph.nblocks) (Loading.start m₁)
    (fun _ n hn => Loading.loadBlock_congr hagree (by
      rw [List.mem_range] at hn
      rw [ProgramHeader.Inside] at hph
      omega)) h
  unfold loadApp
  dsimp only
  rw [hloop]

/-- Whether the stores of the loader find their slots does not depend on the reader either. -/
theorem LoadsInPlace.congr (hreader : reader.Spares) (hagree : Reader.Agrees m N reader reader')
    (h : m.toPaging.Spares m₁.toPaging) {ph : ProgramHeader} (hph : ph.Inside N)
    (hplace : LoadsInPlace pid reader ph m₁) : LoadsInPlace pid reader' ph m₁ := by
  refine Runs.EveryStep.congr_inv (I := fun st => m.toPaging.Spares st.mmu.toPaging)
    (fun _ _ _ => Loading.spares_loadBlock hreader) (List.range ph.nblocks) (Loading.start m₁) ?_ h
    hplace
  intro st n hn hst
  rw [List.mem_range] at hn
  have hlt : ph.pOffset / 512 + n < N := by
    rw [ProgramHeader.Inside] at hph
    omega
  refine ⟨Loading.loadBlock_congr hagree hlt hst, ?_⟩
  intro st' hplace st₁ block hfetch
  rw [← Loading.fetch_congr hagree hlt hst] at hfetch
  exact hplace st₁ block hfetch

/-- On QEMU every store finds its slot. -/
theorem loadsInPlace_of_qemu (hreader : reader.Spares) (hok : m.toPaging.Ok)
    (hqemu : m.platform ≠ .arty) (pid : ℤ) (ph : ProgramHeader) : LoadsInPlace pid reader ph m := by
  refine Runs.EveryStep.of_inv (I := fun st => m.toPaging.Spares st.mmu.toPaging) ?_
    (List.range ph.nblocks) (Loading.start m) hok.spares
  intro st n st' hst hstep
  refine ⟨?_, Loading.spares_loadBlock hreader hst hstep⟩
  intro st₁ block hfetch harty
  exact absurd ((Loading.spares_fetch hreader hst hfetch).platform.symm.trans harty) hqemu

/-- **`load_app`** leaves the files alone. -/
theorem spares_loadApp (hreader : reader.Spares) (hok : m.toPaging.Ok) {argc : ℕ}
    {argv : Option (ℕ → UInt8)} {ph : ProgramHeader}
    (h : loadApp pid reader argc argv ph m = some m') : m.toPaging.Spares m'.toPaging := by
  unfold loadApp at h
  simp only [Option.bind_eq_bind, Option.bind_eq_some_iff, Option.pure_def] at h
  obtain ⟨st₁, h₁, st₂, h₂, st₃, h₃, st₄, h₄, h₅⟩ := h
  have hs₁ := Runs.foldlM_inv (I := fun st => m.toPaging.Spares st.mmu.toPaging)
    (fun _ _ _ => Loading.spares_loadBlock hreader) _ (Loading.start m) st₁ hok.spares h₁
  have hs₂ : m.toPaging.Spares st₂.mmu.toPaging := by
    refine Runs.foldlM_inv (I := fun st => m.toPaging.Spares st.mmu.toPaging) ?_ _ _ st₂ ?_ h₂
    · intro st _ st' hst h'
      obtain ⟨st'', h'', rfl⟩ := Option.map_eq_some_iff.1 h'
      exact (hst.trans (Loading.spares_newCodePage hst.ok h'')).setPage _ _
    · split
      · exact hs₁.setPage _ _
      · exact hs₁
  have hs₃ := hs₂.trans (Loading.spares_newPage hs₂.ok h₃)
  have hs₄ := (hs₃.setPage st₃.base _).trans (Loading.spares_newPage (hs₃.setPage st₃.base _).ok h₄)
  obtain rfl := Option.some.inj h₅
  exact hs₄

theorem Paging.Spares.grassBlock (hreader : reader.Spares) (h : m.toPaging.Spares m₁.toPaging)
    (blockOffset n : ℕ) : m.toPaging.Spares (grassBlock reader blockOffset m₁ n).toPaging :=
  (h.trans (hreader (blockOffset + n) m₁ h.ok)).setPage _ _

/-- **`load_grass`** leaves the files alone. -/
theorem spares_loadGrass (hreader : reader.Spares) (hok : m.toPaging.Ok) (ph : ProgramHeader) :
    m.toPaging.Spares (loadGrass reader ph m).toPaging := by
  have hloop : m.toPaging.Spares
      ((List.range ph.nblocks).foldl (grassBlock reader (ph.pOffset / 512)) m).toPaging :=
    Runs.foldl_range (I := fun _ (m₁ : Mmu) => m.toPaging.Spares m₁.toPaging) hok.spares ph.nblocks
      fun n _ _ h => h.grassBlock hreader _ n
  exact ⟨hloop.ok.congr rfl, hloop.platform, hloop.files⟩

/-- **`load_grass`** does the same. -/
theorem loadGrass_congr (hreader : reader.Spares) (hagree : Reader.Agrees m N reader reader')
    (h : m.toPaging.Spares m₁.toPaging) {ph : ProgramHeader} (hph : ph.Inside N) :
    loadGrass reader ph m₁ = loadGrass reader' ph m₁ := by
  have hloop : ∀ (l : List ℕ) (m₁ : Mmu), m.toPaging.Spares m₁.toPaging →
      (∀ n ∈ l, ph.pOffset / 512 + n < N) →
      l.foldl (grassBlock reader (ph.pOffset / 512)) m₁ =
        l.foldl (grassBlock reader' (ph.pOffset / 512)) m₁ := by
    intro l
    induction l with
    | nil => exact fun _ _ _ => rfl
    | cons n l ih =>
        intro m₁ h hl
        have hstep : grassBlock reader (ph.pOffset / 512) m₁ n =
            grassBlock reader' (ph.pOffset / 512) m₁ n := by
          unfold grassBlock
          rw [hagree _ (hl n List.mem_cons_self) m₁ h]
        rw [List.foldl_cons, List.foldl_cons, ← hstep]
        exact ih _ (h.grassBlock hreader _ n) fun k hk => hl k (List.mem_cons_of_mem n hk)
  unfold loadGrass
  rw [hloop _ m₁ h fun n hn => by
    rw [List.mem_range] at hn
    rw [ProgramHeader.Inside] at hph
    omega]

theorem loadSegment_congr {translation : Translation} {argc : ℕ} {argv : Option (ℕ → UInt8)}
    (hreader : reader.Spares) (hagree : Reader.Agrees m N reader reader')
    (h : m.toPaging.Spares m₁.toPaging) {ph : Segment} (hph : ph.pMemsz ≠ 0 → ph.Inside N) :
    loadSegment translation pid reader argc argv ph m₁ =
      loadSegment translation pid reader' argc argv ph m₁ := by
  unfold loadSegment
  by_cases hmem : ph.pMemsz = 0
  · rw [if_pos hmem, if_pos hmem]
  · rw [if_neg hmem, if_neg hmem, loadGrass_congr hreader hagree h (hph hmem),
      loadApp_congr hreader hagree h argc argv (hph hmem)]

theorem spares_loadSegment {translation : Translation} {argc : ℕ} {argv : Option (ℕ → UInt8)}
    (hreader : reader.Spares) (hok : m.toPaging.Ok) {ph : Segment}
    (h : loadSegment translation pid reader argc argv ph m = some m') :
    m.toPaging.Spares m'.toPaging := by
  unfold loadSegment at h
  split at h
  · obtain rfl := Option.some.inj h
    exact hok.spares
  · split at h
    · obtain rfl := Option.some.inj h
      exact spares_loadGrass hreader hok ph.toProgramHeader
    · split at h
      · split at h
        · simp at h
        · exact spares_loadApp hreader hok h
      · simp at h

theorem Paging.Spares.loadHeader {translation : Translation} {argc : ℕ}
    {argv : Option (ℕ → UInt8)} {buf : Block} (hreader : reader.Spares)
    (h : m.toPaging.Spares m₁.toPaging) {i : ℕ}
    (hload : loadHeader translation pid reader argc argv buf m₁ i = some m') :
    m.toPaging.Spares m'.toPaging := by
  obtain ⟨ph, -, hload⟩ := Option.bind_eq_some_iff.1 hload
  exact h.trans (spares_loadSegment hreader h.ok hload)

/-- **`elf_load`** leaves the files alone. -/
theorem spares_elfLoad {translation : Translation} {argc : ℕ} {argv : Option (ℕ → UInt8)}
    (hreader : reader.Spares) (hok : m.toPaging.Ok)
    (h : elfLoad translation pid reader argc argv m = some m') :
    m.toPaging.Spares m'.toPaging := by
  unfold elfLoad at h
  obtain ⟨n, -, hloop⟩ := Option.bind_eq_some_iff.1 h
  exact Runs.foldlM_inv (I := fun m' : Mmu => m.toPaging.Spares m'.toPaging)
    (fun _ _ _ h₁ h₂ => h₁.loadHeader hreader h₂) _ _ m' (hreader 0 m hok) hloop

/-- **`elf_load`** does the same with two readers that agree as long as the files are kept. -/
theorem elfLoad_congr (translation : Translation) (pid : ℤ) (argc : ℕ) (argv : Option (ℕ → UInt8))
    (hreader : reader.Spares) (hok : m.toPaging.Ok) (hagree : Reader.Agrees m N reader reader')
    (hN : 0 < N)
    (hph : ∀ n i ph, phnum (reader' 0 m).2 = some n → i < n →
      programHeader (reader' 0 m).2 i = some ph → ph.pMemsz ≠ 0 → ph.Inside N) :
    elfLoad translation pid reader argc argv m = elfLoad translation pid reader' argc argv m := by
  have hfirst := hagree 0 hN m hok.spares
  have hstart := hreader 0 m hok
  unfold elfLoad
  rw [hfirst] at hstart ⊢
  refine Option.bind_congr fun n hn => ?_
  refine Runs.foldlM_congr_inv (I := fun m' : Mmu => m.toPaging.Spares m'.toPaging)
    (fun _ _ _ h₁ h₂ => h₁.loadHeader hreader h₂) _ _ ?_ hstart
  intro m₁ i hi h₁
  refine Option.bind_congr fun ph hheader => ?_
  exact loadSegment_congr hreader hagree h₁ (hph n i ph hn (List.mem_range.1 hi) hheader)

end Loader

/-- **Reading the disk meanwhile is reading it before.** -/
theorem DiskReader.elfLoad_eq {r : DiskReader} {m : Mmu} {N : ℕ} (translation : Translation)
    (pid : ℤ) (argc : ℕ) (argv : Option (ℕ → UInt8)) (hok : m.toPaging.Ok)
    (hlocal : r.Local m.disk N) (hN : 0 < N)
    (hph : ∀ n i ph, phnum (r.block m.disk 0) = some n → i < n →
      programHeader (r.block m.disk 0) i = some ph → ph.pMemsz ≠ 0 → ph.Inside N) :
    elfLoad translation pid r.read argc argv m =
      elfLoad translation pid (exchange r.meanwhile (r.block m.disk)) argc argv m :=
  elfLoad_congr translation pid argc argv r.read_spares hok (read_agrees hlocal) hN hph

/-! ### Runs -/

/-- What happens to the memory and the disk. -/
inductive Mmu.Event
  /-- The kernel and the loader call the MMU. -/
  | call (c : Mmu.Call)
  /-- The process that is switched in writes to its memory. -/
  | write (i : Fin 256) (f : Page → Page)
  /-- A binary is loaded. -/
  | load (translation : Translation) (pid : ℤ) (r : DiskReader) (argc : ℕ)
      (argv : Option (ℕ → UInt8))

namespace Mmu

variable {m m' : Mmu}

/-- One event. -/
def event (m : Mmu) : Event → Option Mmu
  | .call c => m.call c
  | .write i f => some ((VmAct.write i f).run m)
  | .load translation pid r argc argv => elfLoad translation pid r.read argc argv m

/-- A run. -/
def events (m : Mmu) (es : List Event) : Option Mmu := es.foldlM event m

theorem event_spares {e : Event} (hok : m.toPaging.Ok) (h : m.event e = some m') :
    m.toPaging.Spares m'.toPaging := by
  cases e with
  | call c => exact spares_call hok h
  | write i f =>
      obtain rfl := Option.some.inj h
      exact spares_act hok (.write i f)
  | load translation pid r argc argv => exact spares_elfLoad r.read_spares hok h

/-- **No run writes to the files.** -/
theorem events_spares {es : List Event} (hok : m.toPaging.Ok) (h : m.events es = some m') :
    m.toPaging.Spares m'.toPaging :=
  Runs.foldlM_inv (I := fun m' : Mmu => m.toPaging.Spares m'.toPaging)
    (fun _ _ _ h₁ h₂ => h₁.trans (event_spares h₁.ok h₂)) es m m' hok.spares h

/-! ### Address spaces -/

/-- The process is a new one. -/
structure New (m : Mmu) (pid : ℤ) : Prop where
  pos : pid ≠ 0
  curr : m.currVmPid ≠ pid
  frames : ∀ i, ¬ m.Owned i pid

/-- **The conditions under which the system lets an event happen.**  A frame is mapped once, for a
process that is not switched in and has no other frame at that page; the process that is switched in
is not freed; there is no process 0; and a binary is loaded for a new process, which does not run in
the meantime, if it is a program. -/
def Event.Proper (m : Mmu) : Event → Prop
  | .call .mmuAlloc => True
  | .call (.softTlbMap pid pageNo i) => m.Owned i 0 ∧ pid ≠ m.currVmPid ∧ UserPage pageNo ∧
      ∀ j, m.Owned j pid → (m.table j).pageNo ≠ pageNo
  | .call (.mmuFree pid) => pid ≠ m.currVmPid
  | .call (.softTlbSwitch pid) => pid ≠ 0
  | .write _ _ => True
  | .load _ pid r _ _ => m.New pid ∧ (∀ n, ∀ b ∈ r.meanwhile n, b.Live pid) ∧
      ∃ ph, IsProgram (r.read 0 m).2 ph

/-- A call of the MMU is an operation on the address spaces. -/
theorem call_private {own : Fin 256 → Page} {c : Call} (h : m.Private own)
    (hp : (Event.call c).Proper m) (hc : m.call c = some m') : ∃ own', m'.Private own' := by
  have hok : (⟨m, none, own⟩ : Spaces).Ok := ⟨h, fun _ _ hnone => absurd hnone (by simp)⟩
  cases c with
  | mmuAlloc =>
      simp only [call] at hc
      split at hc
      · rename_i i a m₁ halloc
        obtain rfl := Option.some.inj hc
        have hstep : (⟨m, none, own⟩ : Spaces).step .mmuAlloc = some
            { mmu := m₁, fresh := some (i, a), own := Function.update own i (m₁.mem a) } := by
          simp only [Spaces.step, halloc]
        exact ⟨_, (hok.step hstep).mmu⟩
      · simp at hc
  | softTlbMap pid pageNo i =>
      have hm' : m.softTlbMap pid pageNo i = m' := Option.some.inj hc
      have hstep : (⟨m, none, own⟩ : Spaces).step (.softTlbMap pid pageNo i) =
          some ⟨m', none, own⟩ := by
        rw [← hm']
        exact if_pos hp
      exact ⟨own, (hok.step hstep).mmu⟩
  | mmuFree pid =>
      have hm' : m.mmuFree pid = m' := Option.some.inj hc
      have hstep : (⟨m, none, own⟩ : Spaces).step (.mmuFree pid) = some ⟨m', none, own⟩ := by
        rw [← hm']
        exact if_pos hp
      exact ⟨own, (hok.step hstep).mmu⟩
  | softTlbSwitch pid =>
      have hm' : m.softTlbSwitch pid = m' := Option.some.inj hc
      have hstep : (⟨m, none, own⟩ : Spaces).step (.softTlbSwitch pid) = some ⟨m', none, own⟩ := by
        rw [← hm']
        exact if_pos hp
      exact ⟨own, (hok.step hstep).mmu⟩

theorem load_private {own : Fin 256 → Page} {translation : Translation} {pid : ℤ} {r : DiskReader}
    {argc : ℕ} {argv : Option (ℕ → UInt8)} (h : m.Private own)
    (hp : (Event.load translation pid r argc argv).Proper m)
    (hload : elfLoad translation pid r.read argc argv m = some m') :
    ∃ own', m'.Private own' := by
  obtain ⟨hnew, hlive, ph, hph⟩ := hp
  obtain ⟨htable, -, hcurr, own₁, hpriv, -⟩ :=
    VmAct.foldl_run_spec (r.meanwhile 0) h (hlive 0) hnew.curr
  rw [hph.elfLoad_eq (Prod.ext (r.read_fst 0 m) rfl)] at hload
  split at hload
  · exact absurd hload (by simp)
  · obtain ⟨-, own', -, -, hpriv', -⟩ := loadApp_stackPage hpriv hnew.pos hcurr
      (fun i hi => hnew.frames i ((owned_congr htable i pid).1 hi)) hph.filesz
      (DiskReader.read_exchanges hlive) hload
    exact ⟨own', hpriv'⟩

theorem event_private {e : Event} (h : ∃ own, m.Private own) (hp : e.Proper m)
    (he : m.event e = some m') : ∃ own, m'.Private own := by
  obtain ⟨own, h⟩ := h
  cases e with
  | call c => exact call_private h hp he
  | write i f =>
      obtain rfl := Option.some.inj he
      have hne : m.currVmPid ≠ m.currVmPid + 1 := by omega
      obtain ⟨-, -, -, own', hpriv, -⟩ := VmAct.run_spec (a := .write i f) h trivial hne
      exact ⟨own', hpriv⟩
  | load translation pid r argc argv => exact load_private h hp he

/-- **The address spaces stay private** in every run of the system. -/
theorem events_private {es : List Event} (h : ∃ own, m.Private own)
    (hproper : Runs.EveryStep event (fun m e _ => e.Proper m) m es) (hrun : m.events es = some m') :
    ∃ own, m'.Private own := by
  refine Runs.EveryStep.foldlM (Q := fun m => ∃ own, m.Private own) es m m' h ?_ hrun
  refine Runs.EveryStep.imp (I := fun m _ => ∃ own, m.Private own) ?_ es m h hproper
  intro m₁ e _ m₂ h₁ hstep hp
  have h₂ := event_private h₁ hp hstep
  exact ⟨h₂, h₂⟩

end Mmu

end Egos
