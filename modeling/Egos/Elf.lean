/-
**The image of a program** (`library/elf/elf.c`).

`elf_load` reads the program headers from the first block of the file.  It skips a header whose
segment takes no memory, loads the segment of the kernel to a fixed address and that of a program
into new frames, and stops at any other one.

Main definitions:

* `Egos.Segment`, `Egos.programHeader` — the program headers, as bytes of a block;
* `Egos.loadGrass`, `Egos.loadSegment`, `Egos.elfLoad` — the loader;
* `Egos.IsProgram` — a file with one segment, for a program;
* `Egos.Built` — frames with pages of a process are added, and all others stay as they are;
* `Egos.AppImage`, `Egos.GrassImage` — the image that a segment describes.

Main results:

* `Egos.loadApp_appImage` — `load_app` builds the image of a program;
* `Egos.loadGrass_grassImage` — `load_grass` builds the image of the kernel;
* `Egos.elf_load_builds_image` — **`elf_load` builds the image of the segment**, if it takes memory,
  there are frames for it and the pid is one that can be mapped.
-/

import Egos.Frames

set_option autoImplicit false

namespace Egos

open Function (update update_idem update_of_ne update_self)
open Paging (pagesStart)

/-! ### The headers -/

/-- A little-endian number of `n` bytes; all of them have to be in the buffer. -/
def Block.uintAt (buf : Block) (x n : ℕ) : Option ℕ :=
  if x + n ≤ 512 then
    some ((List.range n).foldr (fun k v => (buf (Fin.ofNat 512 (x + k))).toNat + 256 * v) 0)
  else none

/-- `struct elf32_program_header`, with the fields that `elf_load` looks at. -/
structure Segment extends ProgramHeader where
  pVaddr : ℕ
  pMemsz : ℕ
  deriving DecidableEq

/-- `header->e_phnum` -/
def phnum (buf : Block) : Option ℕ := buf.uintAt 44 2

/-- `pheader[i]`, of 32 bytes, where `pheader` is at `buf + header->e_phoff` -/
def programHeader (buf : Block) (i : ℕ) : Option Segment := do
  let phoff ← buf.uintAt 28 4
  let pOffset ← buf.uintAt (phoff + 32 * i + 4) 4
  let pVaddr ← buf.uintAt (phoff + 32 * i + 8) 4
  let pFilesz ← buf.uintAt (phoff + 32 * i + 16) 4
  let pMemsz ← buf.uintAt (phoff + 32 * i + 20) 4
  return { pOffset := pOffset, pFilesz := pFilesz, pVaddr := pVaddr, pMemsz := pMemsz }

/-! ### The loader -/

def GRASS_ENTRY : ℕ := 0x08002800

def GRASS_SIZE : ℕ := 0x2800

def APPS_SIZE : ℕ := 0x3000

/-- The byte at an address. -/
def Paging.byteAt (s : Paging) (x : ℕ) : UInt8 :=
  s.mem (x / 4096) (Fin.ofNat 8 (x / 512)) (Fin.ofNat 512 x)

/-- The block at the address `512 * b` is written. -/
def Paging.setBlock (s : Paging) (b : ℕ) (block : Block) : Paging :=
  s.setPage (b / 8) ((s.mem (b / 8)).setBlock b block)

/-- `memset` of `n` bytes with 0 -/
def Paging.zeroBytes (s : Paging) (x n : ℕ) : Paging :=
  { s with
    mem := fun a j k =>
      if x ≤ 4096 * a + 512 * j.val + k.val ∧ 4096 * a + 512 * j.val + k.val < x + n then 0
      else s.mem a j k }

/-- The body of the loop of `load_grass`, with `off = 512 * n`. -/
def grassBlock (reader : Reader) (blockOffset : ℕ) (m : Mmu) (n : ℕ) : Mmu :=
  let (m, block) := reader (blockOffset + n) m
  { m with toPaging := m.toPaging.setBlock (GRASS_ENTRY / 512 + n) block }

/-- `load_grass` -/
def loadGrass (reader : Reader) (ph : ProgramHeader) (m : Mmu) : Mmu :=
  let m := (List.range ph.nblocks).foldl (grassBlock reader (ph.pOffset / 512)) m
  -- the size is an unsigned number
  let size := (GRASS_SIZE + 2 ^ 32 - ph.pFilesz) % 2 ^ 32
  { m with toPaging := m.toPaging.zeroBytes (GRASS_ENTRY + ph.pFilesz) size }

/-- The body of the loop of `elf_load`. -/
def loadSegment (translation : Translation) (pid : ℤ) (reader : Reader) (argc : ℕ)
    (argv : Option (ℕ → UInt8)) (ph : Segment) (m : Mmu) : Option Mmu :=
  if ph.pMemsz = 0 then some m
  else if ph.pVaddr = GRASS_ENTRY then some (loadGrass reader ph.toProgramHeader m)
  else if ph.pVaddr = APPS_ENTRY.toNat then
    -- `load_app` maps pages in any case, and `page_table_map` stops at this pid
    if translation = .pageTable ∧ 32 ≤ pid then none
    else loadApp pid reader argc argv ph.toProgramHeader m
  else none

/-- The header `i` is taken from the buffer and its segment is loaded. -/
def loadHeader (translation : Translation) (pid : ℤ) (reader : Reader) (argc : ℕ)
    (argv : Option (ℕ → UInt8)) (buf : Block) (m : Mmu) (i : ℕ) : Option Mmu := do
  let ph ← programHeader buf i
  loadSegment translation pid reader argc argv ph m

/-- `elf_load` -/
def elfLoad (translation : Translation) (pid : ℤ) (reader : Reader) (argc : ℕ)
    (argv : Option (ℕ → UInt8)) (m : Mmu) : Option Mmu := do
  let (m, buf) := reader 0 m
  let n ← phnum buf
  (List.range n).foldlM (loadHeader translation pid reader argc argv buf) m

/-- The blocks of a file. -/
def fileBlock (file : ℕ → UInt8) (n : ℕ) : Block := fun k => file (512 * n + k.val)

/-- The reader of a file, with nothing that happens in between. -/
def fileReader (file : ℕ → UInt8) : Reader := exchange (fun _ => []) (fileBlock file)

/-! ### The image -/

/-- The byte `x` of the segment: the bytes of the file, and then zeros. -/
def segmentByte (file : ℕ → UInt8) (ph : ProgramHeader) (x : ℕ) : UInt8 :=
  if x < ph.pFilesz then file (ph.pOffset + x) else 0

/-- **The image of a program**: the three code pages, each in a new frame of its own.  The only
other new frames are those of the two stack pages, and those in use keep their contents. -/
structure AppImage (file : ℕ → UInt8) (ph : ProgramHeader) (pid : ℤ) (m m' : Mmu) : Prop where
  code : ∃ f : Fin 3 → Fin 256, Function.Injective f ∧
    (∀ c, (m.table (f c)).use = false ∧ m'.table (f c) = ⟨true, pid, 0x8005 + c⟩ ∧
      ∃ p : Page, m'.HasFrame (f c) p ∧
        ∀ j k, p j k = segmentByte file ph (4096 * c + 512 * j.val + k.val)) ∧
    ∀ i, (∀ c, i ≠ f c) → m'.table i = m.table i ∨
      (m.table i).use = false ∧ ∃ a, (a = 0x80000 ∨ a = 0x80001) ∧ m'.table i = ⟨true, pid, a⟩
  kept : ∀ i, (m.table i).use = true → m'.table i = m.table i ∧
    ∀ p, m.HasFrame i p → m'.HasFrame i p

/-- **The image of the kernel**: the bytes of its region; nothing else is written. -/
structure GrassImage (file : ℕ → UInt8) (ph : ProgramHeader) (m m' : Mmu) : Prop where
  region : ∀ x, GRASS_ENTRY ≤ x → x < GRASS_ENTRY + GRASS_SIZE →
    m'.byteAt x = segmentByte file ph (x - GRASS_ENTRY)
  outside : ∀ x, x < GRASS_ENTRY ∨ GRASS_ENTRY + GRASS_SIZE ≤ x → m'.byteAt x = m.byteAt x
  rest : m' = { m with toPaging := { m.toPaging with mem := m'.mem } }

/-! ### The kernel -/

theorem Paging.byteAt_setBlock (s : Paging) (b : ℕ) (block : Block) (x : ℕ) :
    (s.setBlock b block).byteAt x =
      if x / 512 = b then block (Fin.ofNat 512 x) else s.byteAt x := by
  have hpage : x / 4096 = x / 512 / 8 := by omega
  unfold Paging.byteAt Paging.setBlock Paging.setPage
  dsimp only
  by_cases hb : x / 512 = b
  · rw [if_pos hb, hpage, hb, update_self]
    exact congrFun (if_pos rfl) _
  · rw [if_neg hb]
    by_cases hb8 : x / 4096 = b / 8
    · have hne : (Fin.ofNat 8 (x / 512)).val ≠ b % 8 := by
        simp only [Fin.ofNat]
        omega
      rw [hb8, update_self]
      exact congrFun (if_neg hne) _
    · rw [update_of_ne hb8]

theorem Paging.byteAt_zeroBytes (s : Paging) (y n x : ℕ) :
    (s.zeroBytes y n).byteAt x = if y ≤ x ∧ x < y + n then 0 else s.byteAt x := by
  have hx : 4096 * (x / 4096) + 512 * (Fin.ofNat 8 (x / 512)).val + (Fin.ofNat 512 x).val = x := by
    simp only [Fin.ofNat]
    omega
  unfold Paging.byteAt Paging.zeroBytes
  dsimp only
  rw [hx]

/-- **The invariant of the loop of `load_grass`**, after `n` blocks. -/
structure GrassCopied (file : ℕ → UInt8) (blockOffset : ℕ) (m : Mmu) (n : ℕ) (m' : Mmu) : Prop where
  byte : ∀ x, m'.byteAt x = if GRASS_ENTRY ≤ x ∧ x < GRASS_ENTRY + 512 * n then
    file (512 * blockOffset + (x - GRASS_ENTRY)) else m.byteAt x
  rest : m' = { m with toPaging := { m.toPaging with mem := m'.mem } }

theorem GrassCopied.grassBlock {file : ℕ → UInt8} {blockOffset n : ℕ} {m m' : Mmu}
    (h : GrassCopied file blockOffset m n m') :
    GrassCopied file blockOffset m (n + 1) (grassBlock (fileReader file) blockOffset m' n) := by
  refine ⟨?_, ?_⟩
  · intro x
    have hset : (Egos.grassBlock (fileReader file) blockOffset m' n).byteAt x = _ :=
      Paging.byteAt_setBlock m'.toPaging (GRASS_ENTRY / 512 + n)
        (fileBlock file (blockOffset + n)) x
    rw [hset, h.byte x]
    have hentry : GRASS_ENTRY = 512 * (GRASS_ENTRY / 512) := rfl
    by_cases hx : x / 512 = GRASS_ENTRY / 512 + n
    · rw [if_pos hx, if_pos (by omega)]
      change file (512 * (blockOffset + n) + x % 512) = _
      exact congrArg file (by omega)
    · rw [if_neg hx]
      by_cases hcopied : GRASS_ENTRY ≤ x ∧ x < GRASS_ENTRY + 512 * n
      · rw [if_pos hcopied, if_pos (by omega)]
      · rw [if_neg hcopied, if_neg (by omega)]
  · unfold Egos.grassBlock
    dsimp only [fileReader, exchange, List.foldl_nil]
    rw [h.rest]
    rfl

/-- **`load_grass`** builds the image of the kernel. -/
theorem loadGrass_grassImage (file : ℕ → UInt8) (ph : ProgramHeader) (m : Mmu)
    (hoff : ph.pOffset % 512 = 0) (hsize : ph.pFilesz ≤ GRASS_SIZE) :
    GrassImage file ph m (loadGrass (fileReader file) ph m) := by
  have hloop := Runs.foldl_range (f := grassBlock (fileReader file) (ph.pOffset / 512))
    (I := GrassCopied file (ph.pOffset / 512) m)
    (⟨fun x => by rw [if_neg (by omega)], rfl⟩) ph.nblocks fun _ _ _ h => h.grassBlock
  generalize hm' : (List.range ph.nblocks).foldl _ m = m' at hloop
  have hload : loadGrass (fileReader file) ph m =
      { m' with toPaging := Paging.zeroBytes m'.toPaging (GRASS_ENTRY + ph.pFilesz)
                  (GRASS_SIZE - ph.pFilesz) } := by
    have hmod : (GRASS_SIZE + 2 ^ 32 - ph.pFilesz) % 2 ^ 32 = GRASS_SIZE - ph.pFilesz := by
      unfold GRASS_SIZE at hsize ⊢
      omega
    unfold loadGrass
    dsimp only
    rw [hm', hmod]
  have hbyte : ∀ x, (loadGrass (fileReader file) ph m).byteAt x =
      if GRASS_ENTRY ≤ x ∧ x < GRASS_ENTRY + GRASS_SIZE then
        segmentByte file ph (x - GRASS_ENTRY) else m.byteAt x := by
    intro x
    rw [hload]
    change (m'.toPaging.zeroBytes _ _).byteAt x = _
    rw [Paging.byteAt_zeroBytes, hloop.byte x]
    have hblocks : ph.nblocks = (ph.pFilesz + 511) / 512 := rfl
    have hkernel : GRASS_SIZE = 512 * 20 := rfl
    by_cases hzero : GRASS_ENTRY + ph.pFilesz ≤ x ∧
        x < GRASS_ENTRY + ph.pFilesz + (GRASS_SIZE - ph.pFilesz)
    · rw [if_pos hzero, if_pos (by omega), segmentByte, if_neg (by omega)]
    · rw [if_neg hzero]
      by_cases hfile : GRASS_ENTRY ≤ x ∧ x < GRASS_ENTRY + GRASS_SIZE
      · rw [if_pos hfile, if_pos (by omega), segmentByte, if_pos (by omega)]
        exact congrArg file (by omega)
      · rw [if_neg hfile, if_neg (by omega)]
  refine ⟨?_, ?_, ?_⟩
  · intro x h₁ h₂
    rw [hbyte, if_pos ⟨h₁, h₂⟩]
  · intro x hx
    rw [hbyte, if_neg (by omega)]
  · rw [hload, hloop.rest]
    rfl

/-! ### The frames of a program -/

/-- A frame of the new program, with its page. -/
structure NewFrame where
  frame : Fin 256
  pageNo : ℕ
  page : Page

/-- **The frames are added**, and all others stay as they are. -/
structure Built (m₀ : Mmu) (pid : ℤ) (F : List NewFrame) (m : Mmu) : Prop where
  ok : m.toPaging.Ok
  count : used m.table = used m₀.table + F.length
  nodup : (F.map NewFrame.frame).Nodup
  fresh : ∀ x ∈ F, (m₀.table x.frame).use = false
  table : ∀ x ∈ F, m.table x.frame = ⟨true, pid, x.pageNo⟩
  content : ∀ x ∈ F, m.HasFrame x.frame x.page
  other : ∀ i ∉ F.map NewFrame.frame, m.table i = m₀.table i ∧
    ∀ p, m₀.HasFrame i p → m.HasFrame i p

theorem Built.start {m : Mmu} (hok : m.toPaging.Ok) (pid : ℤ) : Built m pid [] m where
  ok := hok
  count := rfl
  nodup := List.nodup_nil
  fresh := by simp
  table := by simp
  content := by simp
  other := fun _ _ => ⟨rfl, fun _ h => h⟩

section Frames

variable {m₀ : Mmu} {pid : ℤ} {F : List NewFrame} {st : Loading} {a : ℕ}

/-- **A new page**, with any contents, at the address that the loader has. -/
theorem Built.newPage (h : Built m₀ pid F st.mmu) (hroom : used m₀.table + F.length < 256) (a : ℕ) :
    ∃ st' p, st.newPage pid a = some st' ∧ Built m₀ pid (⟨st'.frameNo, a, p⟩ :: F) st'.mmu ∧
      st'.mmu.FrameAt st'.frameNo st'.base ∧ st'.codeStart = st.codeStart := by
  obtain ⟨i, base, m₁, halloc⟩ := Mmu.exists_mmuAlloc (m := st.mmu) (by rw [h.count]; exact hroom)
  obtain ⟨huse, hread, htable, -⟩ := Mmu.mmuAlloc_eq halloc
  obtain ⟨hok, hkeeps, hat, -⟩ := h.ok.pagingRead_spec i true
  rw [hread] at hok hkeeps hat
  have htable' : (m₁.softTlbMap pid a i).table = update st.mmu.table i ⟨true, pid, a⟩ := by
    unfold Mmu.softTlbMap
    rw [htable, update_self, update_idem]
  -- a frame of the program is in use
  have hi : i ∉ F.map NewFrame.frame := by
    intro hi
    obtain ⟨x, hx, rfl⟩ := List.mem_map.1 hi
    rw [h.table x hx] at huse
    exact absurd huse (by simp)
  have hne : ∀ x ∈ F, x.frame ≠ i := by
    rintro x hx rfl
    exact hi (List.mem_map_of_mem hx)
  refine ⟨{ st with mmu := m₁.softTlbMap pid a i, base := base, frameNo := i }, m₁.mem base, ?_,
    ⟨hok, ?_, ?_, ?_, ?_, ?_, ?_⟩, hat, rfl⟩
  · unfold Loading.newPage
    rw [halloc]
  · change used (m₁.softTlbMap pid a i).table = _
    rw [htable', used_update huse rfl, h.count]
    rfl
  · exact List.nodup_cons.2 ⟨hi, h.nodup⟩
  · intro x hx
    rcases List.mem_cons.1 hx with rfl | hx
    · rw [← (h.other i hi).1]
      exact huse
    · exact h.fresh x hx
  · intro x hx
    change (m₁.softTlbMap pid a i).table x.frame = _
    rw [htable']
    rcases List.mem_cons.1 hx with rfl | hx
    · exact update_self _ _ _
    · rw [update_of_ne (hne x hx)]
      exact h.table x hx
  · intro x hx
    rcases List.mem_cons.1 hx with rfl | hx
    · exact hat.hasFrame
    · exact hkeeps.frame _ (hne x hx) _ (h.content x hx)
  · intro j hj
    obtain ⟨hji, hjF⟩ := List.ne_and_not_mem_of_not_mem_cons hj
    obtain ⟨hsame, hcontent⟩ := h.other j hjF
    refine ⟨?_, fun p hp => hkeeps.frame j hji p (hcontent p hp)⟩
    change (m₁.softTlbMap pid a i).table j = _
    rw [htable', update_of_ne hji]
    exact hsame

/-- **A store** to the page at the address that the loader has. -/
theorem Built.store {p : Page} (h : Built m₀ pid (⟨st.frameNo, a, p⟩ :: F) st.mmu)
    (hat : st.mmu.FrameAt st.frameNo st.base) (g : Page → Page) :
    Built m₀ pid (⟨st.frameNo, a, g p⟩ :: F) (st.store g).mmu ∧
      (st.store g).mmu.FrameAt st.frameNo st.base := by
  obtain rfl : st.mmu.mem st.base = p :=
    h.ok.hasFrame_unique hat.hasFrame (h.content _ List.mem_cons_self)
  obtain ⟨hok, hkeeps, hframe, hat'⟩ := h.ok.store_spec hat (g (st.mmu.mem st.base))
  have hnot : st.frameNo ∉ F.map NewFrame.frame := (List.nodup_cons.1 h.nodup).1
  have hne : ∀ x ∈ F, x.frame ≠ st.frameNo := by
    intro x hx he
    exact hnot (List.mem_map.2 ⟨x, hx, he⟩)
  refine ⟨⟨hok, h.count, h.nodup, ?_, ?_, ?_, ?_⟩, hat'⟩
  · intro x hx
    rcases List.mem_cons.1 hx with rfl | hx
    · exact h.fresh ⟨st.frameNo, a, st.mmu.mem st.base⟩ List.mem_cons_self
    · exact h.fresh x (List.mem_cons_of_mem _ hx)
  · intro x hx
    rcases List.mem_cons.1 hx with rfl | hx
    · exact h.table ⟨st.frameNo, a, st.mmu.mem st.base⟩ List.mem_cons_self
    · exact h.table x (List.mem_cons_of_mem _ hx)
  · intro x hx
    rcases List.mem_cons.1 hx with rfl | hx
    · exact hframe
    · exact hkeeps.frame _ (hne x hx) _ (h.content x (List.mem_cons_of_mem _ hx))
  · intro j hj
    obtain ⟨hsame, hcontent⟩ := h.other j hj
    have hji := (List.ne_and_not_mem_of_not_mem_cons hj).1
    exact ⟨hsame, fun p hp => hkeeps.frame j hji p (hcontent p hp)⟩

/-! ### The loops of `load_app` -/

variable {file : ℕ → UInt8} {blockOffset filesz : ℕ}

/-- The code pages, from the last one to the first. -/
def codePages (c : ℕ) : List ℕ := (List.range' 0x8005 c).reverse

theorem codePages_succ (c : ℕ) : codePages (c + 1) = (0x8005 + c) :: codePages c := by
  rw [codePages, List.range'_1_concat, List.reverse_append]
  rfl

/-- **The first `c` code pages have frames.** -/
structure CodeFrames (m₀ : Mmu) (pid : ℤ) (c : ℕ) (F : List NewFrame) (st : Loading) : Prop where
  built : Built m₀ pid F st.mmu
  code : st.codeStart = 0x8005 + c
  pages : F.map NewFrame.pageNo = codePages c

namespace CodeFrames

variable {c : ℕ}

theorem length_eq (h : CodeFrames m₀ pid c F st) : F.length = c := by
  rw [← List.length_map (f := NewFrame.pageNo), h.pages, codePages, List.length_reverse,
    List.length_range']

/-- The frames are of the first `c` pages. -/
theorem lt {x : NewFrame} (h : CodeFrames m₀ pid c F st) (hx : x ∈ F) : x.pageNo < 0x8005 + c := by
  have hmem : x.pageNo ∈ codePages c := by
    rw [← h.pages]
    exact List.mem_map_of_mem hx
  rw [codePages, List.mem_reverse, List.mem_range'_1] at hmem
  exact hmem.2

/-- The frames but that of the last page. -/
theorem lt_of_tail {x y : NewFrame} (h : CodeFrames m₀ pid (c + 1) (y :: F) st) (hx : x ∈ F) :
    x.pageNo < 0x8005 + c := by
  have hpages := h.pages
  rw [codePages_succ] at hpages
  have hmem : x.pageNo ∈ codePages c := by
    rw [← (List.cons.inj hpages).2]
    exact List.mem_map_of_mem hx
  rw [codePages, List.mem_reverse, List.mem_range'_1] at hmem
  exact hmem.2

theorem newCodePage (h : CodeFrames m₀ pid c F st) (hroom : used m₀.table + c < 256) :
    ∃ st' p, st.newCodePage pid = some st' ∧
      CodeFrames m₀ pid (c + 1) (⟨st'.frameNo, 0x8005 + c, p⟩ :: F) st' ∧
      st'.mmu.FrameAt st'.frameNo st'.base := by
  rw [← h.length_eq] at hroom
  obtain ⟨st₁, p, hst₁, hbuilt, hat, hcode⟩ := h.built.newPage hroom st.codeStart
  rw [h.code] at hbuilt hcode
  unfold Loading.newCodePage
  rw [hst₁]
  refine ⟨_, p, rfl, ⟨hbuilt, ?_, ?_⟩, hat⟩
  · change st₁.codeStart + 1 = _
    rw [hcode]
    rfl
  · rw [codePages_succ, ← h.pages]
    rfl

theorem store {p : Page} (h : CodeFrames m₀ pid c (⟨st.frameNo, a, p⟩ :: F) st)
    (hat : st.mmu.FrameAt st.frameNo st.base) (g : Page → Page) :
    CodeFrames m₀ pid c (⟨st.frameNo, a, g p⟩ :: F) (st.store g) ∧
      (st.store g).mmu.FrameAt st.frameNo st.base := by
  obtain ⟨hbuilt, hat'⟩ := h.built.store hat g
  exact ⟨⟨hbuilt, h.code, h.pages⟩, hat'⟩

end CodeFrames

/-- **The invariant of the first loop of `load_app`**, after `n` blocks in `c` pages. -/
structure Copied (m₀ : Mmu) (pid : ℤ) (file : ℕ → UInt8) (blockOffset n c : ℕ) (F : List NewFrame)
    (st : Loading) : Prop extends CodeFrames m₀ pid c F st where
  block : ∀ x ∈ F, ∀ d, x.pageNo = 0x8005 + d → ∀ j : Fin 8, 8 * d + j < n →
    x.page j = fileBlock file (blockOffset + (8 * d + j))
  /-- The loader is at the last page. -/
  last : 0 < c → st.mmu.FrameAt st.frameNo st.base ∧
    ∃ p F', F = ⟨st.frameNo, 0x8005 + (c - 1), p⟩ :: F'

/-- The page in which the block `n` goes is there, and the loader is at it. -/
theorem Copied.page {n : ℕ} (h : Copied m₀ pid file blockOffset n ((n + 7) / 8) F st)
    (hroom : used m₀.table + (n + 7) / 8 < 256) :
    ∃ st' p F', (if 512 * n % 4096 = 0 then st.newCodePage pid else some st) = some st' ∧
      Copied m₀ pid file blockOffset n (n / 8 + 1) (⟨st'.frameNo, 0x8005 + n / 8, p⟩ :: F')
        st' := by
  by_cases hmod : 512 * n % 4096 = 0
  · have hc : (n + 7) / 8 = n / 8 := by omega
    rw [hc] at h hroom
    obtain ⟨st', p, hst', hframes, hat⟩ := h.newCodePage hroom
    rw [if_pos hmod]
    refine ⟨st', p, F, hst', hframes, ?_, ?_⟩
    · intro x hx d hd j hj
      rcases List.mem_cons.1 hx with rfl | hx
      · dsimp only at hd
        omega
      · exact h.block x hx d hd j hj
    · intro _
      exact ⟨hat, p, F, rfl⟩
  · have hc : (n + 7) / 8 = n / 8 + 1 := by omega
    rw [hc] at h
    obtain ⟨-, p, F', rfl⟩ := h.last (by omega)
    rw [if_neg hmod]
    exact ⟨st, p, F', rfl, h⟩

/-- **One turn of the first loop.** -/
theorem Copied.loadBlock {n : ℕ} (h : Copied m₀ pid file blockOffset n ((n + 7) / 8) F st)
    (hn : n < 24) (hroom : used m₀.table + 5 ≤ 256) :
    ∃ st' F', st.loadBlock pid (fileReader file) blockOffset n = some st' ∧
      Copied m₀ pid file blockOffset (n + 1) ((n + 1 + 7) / 8) F' st' := by
  obtain ⟨st₁, p, F₁, hst₁, h₁⟩ := h.page (by omega)
  obtain ⟨hat, -⟩ := h₁.last (by omega)
  obtain ⟨hframes, hat'⟩ := h₁.store hat
    fun p => p.setBlock n (fileBlock file (blockOffset + n))
  rw [show (n + 1 + 7) / 8 = n / 8 + 1 by omega]
  refine ⟨_, _, ?_, hframes, ?_, fun _ => ⟨hat', _, _, rfl⟩⟩
  · unfold Loading.loadBlock Loading.fetch
    rw [hst₁]
    rfl
  · intro x hx d hd j hj
    rcases List.mem_cons.1 hx with rfl | hx
    · obtain rfl : d = n / 8 := by
        dsimp only at hd
        omega
      dsimp only
      rw [Page.setBlock]
      by_cases hjn : 8 * (n / 8) + j.val = n
      · rw [if_pos (by omega), hjn]
      · rw [if_neg (by omega)]
        exact h₁.block _ List.mem_cons_self (n / 8) rfl j (by omega)
    · have hlt := h₁.lt_of_tail hx
      exact h₁.block x (List.mem_cons_of_mem _ hx) d hd j (by omega)

/-- **The first `c` code pages are as the segment says.** -/
structure CodeBuilt (m₀ : Mmu) (pid : ℤ) (file : ℕ → UInt8) (blockOffset filesz c : ℕ)
    (F : List NewFrame) (st : Loading) : Prop extends CodeFrames m₀ pid c F st where
  content : ∀ x ∈ F, ∀ d, x.pageNo = 0x8005 + d →
    x.page = filePage (fileBlock file) blockOffset filesz d

/-- The end of the last page is zeroed. -/
theorem Copied.zeroTail {c : ℕ} (h : Copied m₀ pid file blockOffset ((filesz + 511) / 512) c F st)
    (hc : c = (filesz + 4095) / 4096) :
    ∃ F', CodeBuilt m₀ pid file blockOffset filesz c F'
      (if filesz % 4096 ≠ 0 then st.store fun p => p.zeroFrom (filesz % 4096) else st) := by
  -- a page that the file fills
  have hfull : ∀ x ∈ F, ∀ d, x.pageNo = 0x8005 + d → 4096 * (d + 1) ≤ filesz →
      x.page = filePage (fileBlock file) blockOffset filesz d := by
    intro x hx d hd hend
    funext j k
    have hj := j.isLt
    have hk := k.isLt
    rw [filePage, if_pos (by omega), h.block x hx d hd j (by omega)]
  by_cases hfilled : filesz % 4096 = 0
  · rw [if_neg (by simpa using hfilled)]
    refine ⟨F, h.toCodeFrames, ?_⟩
    intro x hx d hd
    have hlt := h.lt hx
    exact hfull x hx d hd (by omega)
  · rw [if_pos hfilled]
    obtain ⟨c, rfl⟩ : ∃ c', c = c' + 1 := ⟨c - 1, by omega⟩
    obtain ⟨hat, p, F', rfl⟩ := h.last (by omega)
    obtain ⟨hframes, -⟩ := h.store hat fun p => p.zeroFrom (filesz % 4096)
    refine ⟨_, hframes, ?_⟩
    intro x hx d hd
    rcases List.mem_cons.1 hx with rfl | hx
    · dsimp only at hd
      funext j k
      have hj := j.isLt
      have hk := k.isLt
      dsimp only
      rw [Page.zeroFrom, filePage]
      by_cases hx : filesz % 4096 ≤ 512 * j.val + k.val
      · rw [if_pos hx, if_neg (by omega)]
      · rw [if_neg hx, if_pos (by omega),
          ← h.block _ List.mem_cons_self d (by dsimp only; omega) j (by omega)]
    · have hlt := h.lt_of_tail hx
      exact hfull x (List.mem_cons_of_mem _ hx) d hd (by omega)

/-- **One turn of the second loop**: a page of zeros after the end of the file. -/
theorem CodeBuilt.zeroPage {c : ℕ} (h : CodeBuilt m₀ pid file blockOffset filesz c F st)
    (hend : filesz ≤ 4096 * c) (hroom : used m₀.table + c < 256) :
    ∃ st' F', st.zeroPage pid = some st' ∧
      CodeBuilt m₀ pid file blockOffset filesz (c + 1) F' st' := by
  obtain ⟨st₁, p, hst₁, hframes, hat⟩ := h.newCodePage hroom
  obtain ⟨hframes', -⟩ := hframes.store hat fun p => p.zeroFrom 0
  unfold Loading.zeroPage
  rw [hst₁]
  refine ⟨_, _, rfl, hframes', ?_⟩
  intro x hx d hd
  rcases List.mem_cons.1 hx with rfl | hx
  · dsimp only at hd
    funext j k
    dsimp only
    rw [Page.zeroFrom, if_pos (by omega), filePage, if_neg (by omega)]
  · exact h.content x hx d hd

end Frames

/-! ### The image of a program -/

theorem filePage_eq_segmentByte (file : ℕ → UInt8) (ph : ProgramHeader)
    (hoff : ph.pOffset % 512 = 0) (c : ℕ) (j : Fin 8) (k : Fin 512) :
    filePage (fileBlock file) (ph.pOffset / 512) ph.pFilesz c j k =
      segmentByte file ph (4096 * c + 512 * j.val + k.val) := by
  unfold filePage segmentByte fileBlock
  split
  · exact congrArg file (by omega)
  · rfl

/-- **`load_app`** succeeds if there are five frames, and builds the code pages of the segment and
the two stack pages, the first of which has the arguments. -/
theorem loadApp_built {m : Mmu} {ph : ProgramHeader} (hok : m.toPaging.Ok)
    (hroom : used m.table + 5 ≤ 256) (hsize : ph.pFilesz ≤ 0x3000) (pid : ℤ) (file : ℕ → UInt8)
    (argc : ℕ) (argv : Option (ℕ → UInt8)) :
    ∃ m' F x y p, loadApp pid (fileReader file) argc argv ph m = some m' ∧
      Built m pid (⟨y, 0x80001, p⟩ :: x :: F) m' ∧ x.pageNo = 0x80000 ∧
      (∃ q : Page, x.page = q.setArgs argc argv) ∧ F.map NewFrame.pageNo = codePages 3 ∧
      ∀ x ∈ F, ∀ d, x.pageNo = 0x8005 + d →
        x.page = filePage (fileBlock file) (ph.pOffset / 512) ph.pFilesz d := by
  have hblocks : ph.nblocks = (ph.pFilesz + 511) / 512 := rfl
  have hstart : Copied m pid file (ph.pOffset / 512) 0 0 [] (Loading.start m) :=
    ⟨⟨Built.start hok pid, rfl, rfl⟩, by simp, by simp⟩
  obtain ⟨st₁, hst₁, F₁, h₁⟩ := Runs.foldlM_range
    (f := Loading.loadBlock pid (fileReader file) (ph.pOffset / 512))
    (I := fun n st => ∃ F, Copied m pid file (ph.pOffset / 512) n ((n + 7) / 8) F st)
    ⟨[], hstart⟩ ph.nblocks (by
      rintro n st hn ⟨F, h⟩
      obtain ⟨st', F', hst', h'⟩ := h.loadBlock (by omega) hroom
      exact ⟨st', hst', F', h'⟩)
  -- the code pages that the file has, and then those that it has not
  rw [hblocks] at h₁
  generalize hc : ((ph.pFilesz + 511) / 512 + 7) / 8 = c at h₁
  obtain ⟨F₂, h₂⟩ := h₁.zeroTail (by omega)
  generalize hst₂ : (if ph.pFilesz % 4096 ≠ 0 then
    st₁.store fun p => p.zeroFrom (ph.pFilesz % 4096) else st₁) = st₂ at h₂
  have hrest : 0x8008 - st₂.codeStart = 3 - c := by
    rw [h₂.code]
    omega
  obtain ⟨st₃, hst₃, F₃, h₃⟩ := Runs.foldlM_range (f := fun st (_ : ℕ) => st.zeroPage pid)
    (I := fun k st => ∃ F, CodeBuilt m pid file (ph.pOffset / 512) ph.pFilesz (c + k) F st)
    ⟨F₂, h₂⟩ (3 - c) (by
      rintro k st hk ⟨F, h⟩
      obtain ⟨st', F', hst', h'⟩ := h.zeroPage (by omega) (by omega)
      exact ⟨st', hst', F', h'⟩)
  rw [show c + (3 - c) = 3 by omega] at h₃
  -- the two stack pages
  have hlen : F₃.length = 3 := h₃.length_eq
  obtain ⟨st₄, q, hst₄, h₄, hat₄, -⟩ := h₃.built.newPage (by omega) 0x80000
  obtain ⟨h₄', -⟩ := h₄.store hat₄ fun p => p.setArgs argc argv
  obtain ⟨st₅, p, hst₅, h₅, -, -⟩ := h₄'.newPage (by rw [List.length_cons]; omega) 0x80001
  refine ⟨st₅.mmu, F₃, _, st₅.frameNo, p, ?_, h₅, rfl, ⟨q, rfl⟩, h₃.pages, h₃.content⟩
  simp only [loadApp, hst₁, hst₂, hrest, hst₃, hst₄, hst₅, Option.bind_eq_bind, Option.bind_some,
    Option.pure_def]

/-- A frame in use is none of the new ones. -/
theorem Built.kept {m₀ m : Mmu} {pid : ℤ} {F : List NewFrame} (h : Built m₀ pid F m) {i : Fin 256}
    (hi : (m₀.table i).use = true) :
    m.table i = m₀.table i ∧ ∀ p, m₀.HasFrame i p → m.HasFrame i p := by
  refine h.other i ?_
  intro hmem
  obtain ⟨x, hx, rfl⟩ := List.mem_map.1 hmem
  exact absurd (hi.symm.trans (h.fresh x hx)) (by simp)

/-- **`load_app`** builds the image of a program. -/
theorem loadApp_appImage {m : Mmu} {ph : ProgramHeader} (hok : m.toPaging.Ok)
    (hroom : used m.table + 5 ≤ 256) (hoff : ph.pOffset % 512 = 0) (hsize : ph.pFilesz ≤ 0x3000)
    (pid : ℤ) (file : ℕ → UInt8) (argc : ℕ) (argv : Option (ℕ → UInt8)) :
    ∃ m', loadApp pid (fileReader file) argc argv ph m = some m' ∧ AppImage file ph pid m m' := by
  obtain ⟨m', F, x, y, p, hload, hbuilt, hx, -, hpages, hcontent⟩ :=
    loadApp_built hok hroom hsize pid file argc argv
  refine ⟨m', hload, ⟨?_, fun i hi => hbuilt.kept hi⟩⟩
  have hF : ∀ z ∈ F, z ∈ (⟨y, 0x80001, p⟩ :: x :: F : List NewFrame) := by
    intro z hz
    exact List.mem_cons_of_mem _ (List.mem_cons_of_mem _ hz)
  have hmem : ∀ a, a ∈ F.map NewFrame.pageNo ↔ 0x8005 ≤ a ∧ a < 0x8005 + 3 := by
    intro a
    rw [hpages, codePages, List.mem_reverse, List.mem_range'_1]
  have hframe : ∀ c : Fin 3, ∃ z ∈ F, z.pageNo = 0x8005 + c := by
    intro c
    exact List.mem_map.1 ((hmem (0x8005 + c)).2 (by omega))
  choose z hz hzc using hframe
  -- no page has two frames
  have hnodup : (F.map NewFrame.pageNo).Nodup := by
    rw [hpages]
    exact List.nodup_reverse.2 List.nodup_range'
  refine ⟨fun c => (z c).frame, ?_, ?_, ?_⟩
  · intro c d hcd
    have hc := hbuilt.table (z c) (hF _ (hz c))
    have hd := hbuilt.table (z d) (hF _ (hz d))
    dsimp only at hcd
    rw [hcd, hd] at hc
    have hpage : (z d).pageNo = (z c).pageNo := congrArg FrameMapping.pageNo hc
    rw [hzc, hzc] at hpage
    exact Fin.ext (by omega)
  · intro c
    refine ⟨hbuilt.fresh _ (hF _ (hz c)), ?_, _, hbuilt.content _ (hF _ (hz c)), ?_⟩
    · rw [hbuilt.table _ (hF _ (hz c)), hzc]
    · intro j k
      rw [hcontent _ (hz c) c (hzc c), filePage_eq_segmentByte file ph hoff]
  · intro i hi
    by_cases hnew : i ∈ (⟨y, 0x80001, p⟩ :: x :: F : List NewFrame).map NewFrame.frame
    · obtain ⟨w, hw, rfl⟩ := List.mem_map.1 hnew
      refine Or.inr ⟨hbuilt.fresh w hw, w.pageNo, ?_, hbuilt.table w hw⟩
      rcases List.mem_cons.1 hw with rfl | hw
      · exact Or.inr rfl
      rcases List.mem_cons.1 hw with rfl | hw
      · exact Or.inl hx
      · -- a frame of a code page is the one of that page
        obtain ⟨hlo, hhi⟩ := (hmem w.pageNo).1 (List.mem_map_of_mem hw)
        have hpage : w.pageNo = (z ⟨w.pageNo - 0x8005, by omega⟩).pageNo := by
          rw [hzc]
          dsimp only
          omega
        refine absurd ?_ (hi ⟨w.pageNo - 0x8005, by omega⟩)
        exact congrArg NewFrame.frame (List.inj_on_of_nodup_map hnodup hw (hz _) hpage)
    · exact Or.inl (hbuilt.other i hnew).1

/-! ### The headers of a file -/

section Headers

variable {translation : Translation} {pid : ℤ} {reader : Reader} {argc : ℕ}
  {argv : Option (ℕ → UInt8)} {buf : Block}

/-- A header whose segment takes no memory is skipped. -/
theorem loadHeader_skip {m : Mmu} {i : ℕ} {ph : Segment} (hph : programHeader buf i = some ph)
    (hmem : ph.pMemsz = 0) : loadHeader translation pid reader argc argv buf m i = some m := by
  unfold loadHeader loadSegment
  rw [hph, Option.bind_eq_bind, Option.bind_some, if_pos hmem]

/-- Headers whose segments take no memory are skipped. -/
theorem foldlM_loadHeader_skip {l : List ℕ} {m : Mmu}
    (h : ∀ j ∈ l, ∃ ph, programHeader buf j = some ph ∧ ph.pMemsz = 0) :
    l.foldlM (loadHeader translation pid reader argc argv buf) m = some m := by
  induction l with
  | nil => rfl
  | cons j l ih =>
      obtain ⟨ph, hph, hmem⟩ := h j List.mem_cons_self
      rw [List.foldlM_cons, loadHeader_skip hph hmem, Option.bind_eq_bind, Option.bind_some]
      exact ih fun k hk => h k (List.mem_cons_of_mem j hk)

/-- `elf_load` comes to the header `i`, and goes on from there. -/
theorem elfLoad_eq_bind {m m₀ m₁ : Mmu} {n i : ℕ} {ph : Segment} (hread : reader 0 m = (m₀, buf))
    (hn : phnum buf = some n) (hi : i < n) (hph : programHeader buf i = some ph)
    (hpre : (List.range i).foldlM (loadHeader translation pid reader argc argv buf) m₀ = some m₁) :
    elfLoad translation pid reader argc argv m =
      (loadSegment translation pid reader argc argv ph m₁).bind
        ((List.range' (i + 1) (n - (i + 1))).foldlM
          (loadHeader translation pid reader argc argv buf)) := by
  have hsplit : List.range n = List.range i ++ i :: List.range' (i + 1) (n - (i + 1)) := by
    have happ := List.range'_append_1 (s := 0) (m := i) (n := n - (i + 1) + 1)
    rw [Nat.zero_add] at happ
    rw [← List.range'_succ, List.range_eq_range', List.range_eq_range', happ]
    congr 1
    omega
  have hheader : loadHeader translation pid reader argc argv buf m₁ i =
      loadSegment translation pid reader argc argv ph m₁ := by
    unfold loadHeader
    rw [hph]
    rfl
  unfold elfLoad
  rw [hread]
  dsimp only
  rw [hn, Option.bind_eq_bind, Option.bind_some, hsplit, List.foldlM_append, hpre,
    Option.bind_eq_bind, Option.bind_some, List.foldlM_cons, hheader]
  rfl

/-- `elf_load` loads one segment, if no other one takes memory. -/
theorem elfLoad_of_only {m m₀ : Mmu} {n i : ℕ} {ph : Segment} (hread : reader 0 m = (m₀, buf))
    (hn : phnum buf = some n) (hi : i < n) (hph : programHeader buf i = some ph)
    (hother : ∀ j < n, j ≠ i → ∃ ph, programHeader buf j = some ph ∧ ph.pMemsz = 0) :
    elfLoad translation pid reader argc argv m =
      loadSegment translation pid reader argc argv ph m₀ := by
  have hpre : ∀ m, (List.range i).foldlM (loadHeader translation pid reader argc argv buf) m =
      some m := by
    intro m
    refine foldlM_loadHeader_skip ?_
    intro j hj
    rw [List.mem_range] at hj
    exact hother j (by omega) (by omega)
  have hpost : (List.range' (i + 1) (n - (i + 1))).foldlM
      (loadHeader translation pid reader argc argv buf) = some := by
    funext m
    refine foldlM_loadHeader_skip ?_
    intro j hj
    rw [List.mem_range'_1] at hj
    exact hother j (by omega) (by omega)
  rw [elfLoad_eq_bind hread hn hi hph (hpre _), hpost, Option.bind_fun_some]

/-- **The file is a program**, as its first block says: it has one segment that takes memory, which
is for a program. -/
structure IsProgram (buf : Block) (ph : Segment) : Prop where
  header : ∃ n i, phnum buf = some n ∧ i < n ∧ programHeader buf i = some ph ∧
    ∀ j < n, j ≠ i → ∃ ph, programHeader buf j = some ph ∧ ph.pMemsz = 0
  memsz : 0 < ph.pMemsz
  vaddr : ph.pVaddr = APPS_ENTRY.toNat
  filesz : ph.pFilesz ≤ APPS_SIZE

/-- `elf_load` loads a program by `load_app`. -/
theorem IsProgram.elfLoad_eq {ph : Segment} (h : IsProgram buf ph) {m m₀ : Mmu}
    (hread : reader 0 m = (m₀, buf)) :
    elfLoad translation pid reader argc argv m =
      if translation = .pageTable ∧ 32 ≤ pid then none
      else loadApp pid reader argc argv ph.toProgramHeader m₀ := by
  obtain ⟨n, i, hn, hi, hph, hother⟩ := h.header
  have hmemsz : ph.pMemsz ≠ 0 := h.memsz.ne'
  have hgrass : ph.pVaddr ≠ GRASS_ENTRY := by
    rw [h.vaddr]
    decide
  rw [elfLoad_of_only hread hn hi hph hother]
  unfold loadSegment
  rw [if_neg hmemsz, if_neg hgrass, if_pos h.vaddr]

end Headers

/-- The headers up to `i` are dealt with, and those after it follow. -/
def ElfLoadsFrom (translation : Translation) (pid : ℤ) (file : ℕ → UInt8) (argc : ℕ)
    (argv : Option (ℕ → UInt8)) (n i : ℕ) (m m₁ m₂ : Mmu) : Prop :=
  elfLoad translation pid (fileReader file) argc argv m =
      (List.range' (i + 1) (n - (i + 1))).foldlM
        (loadHeader translation pid (fileReader file) argc argv (fileBlock file 0)) m₂ ∧
    -- no other segment takes memory
    ((∀ j < n, j ≠ i → ∃ ph, programHeader (fileBlock file 0) j = some ph ∧ ph.pMemsz = 0) →
      m₁ = m ∧ elfLoad translation pid (fileReader file) argc argv m = some m₂)

theorem elfLoadsFrom_of_step {translation : Translation} {pid : ℤ} {file : ℕ → UInt8} {argc : ℕ}
    {argv : Option (ℕ → UInt8)} {n i : ℕ} {m m₁ m₂ : Mmu} {ph : Segment}
    (hn : phnum (fileBlock file 0) = some n) (hi : i < n)
    (hph : programHeader (fileBlock file 0) i = some ph)
    (hpre : (List.range i).foldlM
      (loadHeader translation pid (fileReader file) argc argv (fileBlock file 0)) m = some m₁)
    (hstep : loadSegment translation pid (fileReader file) argc argv ph m₁ = some m₂) :
    ElfLoadsFrom translation pid file argc argv n i m m₁ m₂ := by
  refine ⟨?_, ?_⟩
  · rw [elfLoad_eq_bind rfl hn hi hph hpre, hstep, Option.bind_some]
  · intro hother
    obtain rfl : m = m₁ := by
      rw [foldlM_loadHeader_skip] at hpre
      · exact Option.some.inj hpre
      · intro j hj
        rw [List.mem_range] at hj
        exact hother j (by omega) (by omega)
    refine ⟨rfl, ?_⟩
    rw [elfLoad_of_only rfl hn hi hph hother]
    exact hstep

/-- **`elf_load` builds the image of the segment.**  It comes to the header `i` of the file in the
state `m₁`, from which it goes on in a state that has the image.  The segment takes memory; for a
program there are five frames and, if there are page tables, the pid is less than 32.  The arguments
fit in their page. -/
theorem elf_load_builds_image (translation : Translation) (pid : ℤ) (file : ℕ → UInt8) (argc : ℕ)
    (argv : Option (ℕ → UInt8)) (m m₁ : Mmu) (n i : ℕ) (ph : Segment)
    (hn : phnum (fileBlock file 0) = some n) (hi : i < n)
    (hph : programHeader (fileBlock file 0) i = some ph)
    (hpre : (List.range i).foldlM
      (loadHeader translation pid (fileReader file) argc argv (fileBlock file 0)) m = some m₁)
    (hoff : ph.pOffset % 512 = 0) (hmem : 0 < ph.pMemsz) :
    (ph.pVaddr = APPS_ENTRY.toNat → ph.pFilesz ≤ ph.pMemsz → ph.pMemsz ≤ APPS_SIZE →
      68 + 32 * argc ≤ 4096 → m₁.toPaging.Ok → used m₁.table + 5 ≤ 256 →
      (translation = .pageTable → pid < 32) →
      ∃ m₂, AppImage file ph.toProgramHeader pid m₁ m₂ ∧
        ElfLoadsFrom translation pid file argc argv n i m m₁ m₂) ∧
    (ph.pVaddr = GRASS_ENTRY → ph.pFilesz ≤ GRASS_SIZE →
      ∃ m₂, GrassImage file ph.toProgramHeader m₁ m₂ ∧
        ElfLoadsFrom translation pid file argc argv n i m m₁ m₂) := by
  have hskip : ph.pMemsz ≠ 0 := by omega
  refine ⟨?_, ?_⟩
  · intro hvaddr hfile hsize _ hok hroom hpid
    have hsize' : ph.pFilesz ≤ 0x3000 := hfile.trans hsize
    obtain ⟨m₂, hload, himage⟩ :=
      loadApp_appImage hok hroom hoff hsize' pid file argc argv
    refine ⟨m₂, himage, elfLoadsFrom_of_step hn hi hph hpre ?_⟩
    have hgrass : ph.pVaddr ≠ GRASS_ENTRY := by
      rw [hvaddr]
      decide
    have hmap : ¬ (translation = .pageTable ∧ 32 ≤ pid) := by
      rintro ⟨htr, hlarge⟩
      have := hpid htr
      omega
    unfold loadSegment
    rw [if_neg hskip, if_neg hgrass, if_pos hvaddr, if_neg hmap]
    exact hload
  · intro hvaddr hsize
    refine ⟨_, loadGrass_grassImage file ph.toProgramHeader m₁ hoff hsize,
      elfLoadsFrom_of_step hn hi hph hpre ?_⟩
    unfold loadSegment
    rw [if_neg hskip, if_pos hvaddr]

/-- A file with one program header, whose segment is at the second block. -/
def fileWith (pVaddr pFilesz pMemsz x : ℕ) : UInt8 :=
  if x < 28 then 0
  else if x < 32 then byteOf 52 (x - 28)
  else if x < 44 then 0
  else if x < 46 then byteOf 1 (x - 44)
  else if x < 56 then 0
  else if x < 60 then byteOf 512 (x - 56)
  else if x < 64 then byteOf pVaddr (x - 60)
  else if x < 68 then 0
  else if x < 72 then byteOf pFilesz (x - 68)
  else if x < 76 then byteOf pMemsz (x - 72)
  else UInt8.ofNat x

/-- The MMU at boot, on QEMU. -/
def bootMmu : Mmu := Mmu.init (Paging.board .qemuLatest fun _ => 0)

theorem elf_load_builds_image_small :
    (∃ m₂, AppImage (fileWith 0x08005000 700 800) ⟨512, 700⟩ 7 bootMmu m₂ ∧
      ElfLoadsFrom .pageTable 7 (fileWith 0x08005000 700 800) 0 none 1 0 bootMmu bootMmu m₂) ∧
    ∃ m₂, GrassImage (fileWith 0x08002800 700 800) ⟨512, 700⟩ bootMmu m₂ ∧
      ElfLoadsFrom .pageTable 7 (fileWith 0x08002800 700 800) 0 none 1 0 bootMmu bootMmu m₂ := by
  have hused : used bootMmu.table = 0 := by simp [used, bootMmu, Mmu.init]
  refine ⟨?_, ?_⟩
  · exact (elf_load_builds_image .pageTable 7 (fileWith 0x08005000 700 800) 0 none bootMmu bootMmu
      1 0 ⟨⟨512, 700⟩, 0x08005000, 800⟩ rfl (by decide) rfl rfl rfl (by decide)).1 rfl (by decide)
        (by decide) (by decide) (Paging.pagingInit_ok _) (by rw [hused]; decide) (by decide)
  · exact (elf_load_builds_image .pageTable 7 (fileWith 0x08002800 700 800) 0 none bootMmu bootMmu
      1 0 ⟨⟨512, 700⟩, 0x08002800, 800⟩ rfl (by decide) rfl rfl rfl (by decide)).2 rfl (by decide)

/-- **No code page is mapped** if the segment takes no memory, or if there are page tables and the
pid is 32, or if all frames are in use. -/
theorem elf_load_maps_no_code :
    (¬ ∃ m₂ i, elfLoad .softTlb 7 (fileReader (fileWith 0x08005000 0 0)) 0 none bootMmu = some m₂ ∧
      m₂.table i = ⟨true, 7, 0x8005⟩) ∧
    (¬ ∃ m₂, elfLoad .pageTable 32 (fileReader (fileWith 0x08005000 700 800)) 0 none bootMmu =
      some m₂) ∧
    ¬ ∃ m₂, elfLoad .softTlb 7 (fileReader (fileWith 0x08005000 700 800)) 0 none
      { bootMmu with table := fun _ => ⟨true, 1, 0x8005⟩ } = some m₂ := by
  refine ⟨?_, ?_, ?_⟩
  · rintro ⟨m₂, i, hload, hi⟩
    have hskip : elfLoad .softTlb 7 (fileReader (fileWith 0x08005000 0 0)) 0 none bootMmu =
        some bootMmu := rfl
    rw [hskip] at hload
    obtain rfl := Option.some.inj hload
    exact absurd hi (by simp [bootMmu, Mmu.init])
  · rintro ⟨m₂, hload⟩
    have hstop : elfLoad .pageTable 32 (fileReader (fileWith 0x08005000 700 800)) 0 none bootMmu =
        none := rfl
    exact absurd (hstop.symm.trans hload) (by simp)
  · rintro ⟨m₂, hload⟩
    have hstop : elfLoad .softTlb 7 (fileReader (fileWith 0x08005000 700 800)) 0 none
        { bootMmu with table := fun _ => ⟨true, 1, 0x8005⟩ } = none := rfl
    exact absurd (hstop.symm.trans hload) (by simp)

end Egos
