/-
**Executables with any headers** (`library/elf/elf.c`).

`elf_load` takes the file as it is: where the program headers are, how many there are, and how large
the segments are, it reads from the file, and it checks the addresses of the segments only.  Here it
is watched on a file with any contents.  The headers are read from wherever they are said to be, in
the buffer or in the memory around it, and it is noted which words are read as headers and where
`load_grass` writes.  A kernel that is larger than its memory ends the watch: `load_grass` then
clears almost all of the memory, the loader and its stack with it.

Main definitions:

* `Egos.watchElf` — **the loader, watched**;
* `Egos.InTargets` — what it has read, mapped and written is where it should be;
* `Egos.Contained` — it stops, or it returns and is in its targets;
* `Egos.Halts`, `Egos.Overruns`, `Egos.Fits` — what one header leads to.

Main results:

* `Egos.watchElf_of_elfLoad` — on a file whose headers are in the buffer it is the loader;
* `Egos.watchHeaders_cases` — it returns, stops or overruns, as the headers say;
* `Egos.elf_contained_iff` — **which files are contained**.
-/

import Egos.Elf

set_option autoImplicit false

namespace Egos

open Function (update update_of_ne update_self)

/-! ### The loader, watched -/

/-- The byte at the 32-bit address `buf + x`, where the memory around the buffer has any contents.
-/
def byteAround (buf : Block) (around : ℕ → UInt8) (x : ℕ) : UInt8 :=
  if h : x % 2 ^ 32 < 512 then buf ⟨x % 2 ^ 32, h⟩ else around (x % 2 ^ 32)

/-- The 32-bit number at `buf + x`. -/
def uintAround (buf : Block) (around : ℕ → UInt8) (x : ℕ) : ℕ :=
  (List.range 4).foldr (fun k v => (byteAround buf around (x + k)).toNat + 256 * v) 0

/-- `header->e_phnum` -/
def phnumOf (buf : Block) : ℕ := (phnum buf).getD 0

/-- Where `pheader[i]` is. -/
def headerAt (buf : Block) (around : ℕ → ℕ → UInt8) (i : ℕ) : ℕ :=
  uintAround buf (around i) 28 + 32 * i

/-- `pheader[i]`, wherever it is; the memory around the buffer may have changed since the last
header -/
def segmentAround (buf : Block) (around : ℕ → ℕ → UInt8) (i : ℕ) : Segment where
  pOffset := uintAround buf (around i) (headerAt buf around i + 4)
  pVaddr := uintAround buf (around i) (headerAt buf around i + 8)
  pFilesz := uintAround buf (around i) (headerAt buf around i + 16)
  pMemsz := uintAround buf (around i) (headerAt buf around i + 20)

/-- The stores of `load_grass`: their addresses and sizes. -/
def grassWrites (filesz : ℕ) : List (ℕ × ℕ) :=
  ((List.range ((filesz + 511) / 512)).map fun n => ((GRASS_ENTRY + 512 * n) % 2 ^ 32, 512)) ++
    [((GRASS_ENTRY + filesz) % 2 ^ 32, (GRASS_SIZE + 2 ^ 32 - filesz) % 2 ^ 32)]

/-- Why `elf_load` does not return. -/
inductive ElfStop
  | fatal
  /-- A kernel that is larger than its memory: the blocks are written behind the end, and the size
  of the `memset`, `GRASS_SIZE - p_filesz`, wraps around. -/
  | overruns
  deriving DecidableEq

/-- The MMU, and what has been noted. -/
structure Watch where
  mmu : Mmu
  /-- Where words were read as fields of program headers. -/
  reads : List ℕ
  /-- The stores of `load_grass`. -/
  writes : List (ℕ × ℕ)

/-- Fields of the header at `x` are read. -/
def Watch.read (w : Watch) (x : ℕ) (fields : List ℕ) : Watch :=
  { w with reads := w.reads ++ fields.map (x + ·) }

section Watched

variable (translation : Translation) (pid : ℤ) (reader : Reader) (argc : ℕ)
  (argv : Option (ℕ → UInt8)) (around : ℕ → ℕ → UInt8)

/-- The body of the loop of `elf_load`. -/
def watchHeader (buf : Block) (w : Watch) (i : ℕ) : Except ElfStop Watch :=
  let x := headerAt buf around i
  let ph := segmentAround buf around i
  if ph.pMemsz = 0 then .ok (w.read x [20])
  else if ph.pVaddr = GRASS_ENTRY then
    -- nothing is left of the loader after the `memset`, so no later header counts
    if GRASS_SIZE < ph.pFilesz then .error .overruns
    else
      .ok { w.read x [20, 8, 16, 4] with
        mmu := loadGrass reader ph.toProgramHeader w.mmu
        writes := w.writes ++ grassWrites ph.pFilesz }
  else if ph.pVaddr = APPS_ENTRY.toNat then
    if translation = .pageTable ∧ 32 ≤ pid then .error .fatal
    else match loadApp pid reader argc argv ph.toProgramHeader w.mmu with
      | none => .error .fatal
      | some m => .ok { w.read x [20, 8, 16, 4] with mmu := m }
  else .error .fatal

/-- The first `k` headers. -/
def watchHeaders (buf : Block) (m : Mmu) (k : ℕ) : Except ElfStop Watch :=
  (List.range k).foldlM (watchHeader translation pid reader argc argv around buf) ⟨m, [], []⟩

/-- **`elf_load`, watched.** -/
def watchElf (m : Mmu) : Except ElfStop Watch :=
  let (m, buf) := reader 0 m
  watchHeaders translation pid reader argc argv around buf m (phnumOf buf)

end Watched

/-! ### The targets -/

/-- The segment is loaded as the kernel. -/
def Segment.IsGrass (ph : Segment) : Prop := ph.pMemsz ≠ 0 ∧ ph.pVaddr = GRASS_ENTRY

/-- The segment is loaded as a program. -/
def Segment.IsApp (ph : Segment) : Prop := ph.pMemsz ≠ 0 ∧ ph.pVaddr = APPS_ENTRY.toNat

instance (ph : Segment) : Decidable ph.IsGrass := inferInstanceAs (Decidable (_ ∧ _))

instance (ph : Segment) : Decidable ph.IsApp := inferInstanceAs (Decidable (_ ∧ _))

theorem Segment.IsApp.not_isGrass {ph : Segment} (h : ph.IsApp) : ¬ ph.IsGrass := by
  intro hg
  exact absurd (hg.2.symm.trans h.2) (by decide)

section Condition

variable (translation : Translation) (pid : ℤ) (buf : Block) (around : ℕ → ℕ → UInt8)
  (T : Fin 256 → FrameMapping)

/-- The pages for a header. -/
def headerPages (i : ℕ) : List ℕ :=
  if (segmentAround buf around i).IsApp then segmentPages (segmentAround buf around i).pFilesz
  else []

/-- The pages for the first `k` headers. -/
def pagesTo (k : ℕ) : List ℕ := (List.range k).flatMap (headerPages buf around)

/-- Where the fields of a header are that are read. -/
def headerReads (i : ℕ) : List ℕ :=
  (if (segmentAround buf around i).pMemsz = 0 then [20] else [20, 8, 16, 4]).map
    (headerAt buf around i + ·)

/-- The stores of `load_grass` for a header. -/
def headerWrites (i : ℕ) : List (ℕ × ℕ) :=
  if (segmentAround buf around i).IsGrass then grassWrites (segmentAround buf around i).pFilesz
  else []

/-- The loader stops at the header: its segment takes memory at neither of the two addresses, or it
is a program that cannot be mapped or for which there are not enough frames. -/
def Halts (i : ℕ) : Prop :=
  (segmentAround buf around i).pMemsz ≠ 0 ∧ ¬ (segmentAround buf around i).IsGrass ∧
    ((segmentAround buf around i).IsApp →
      (translation = .pageTable ∧ 32 ≤ pid) ∨
        256 < used T + (pagesTo buf around (i + 1)).length)

/-- The loader overruns at the header: it is a kernel that is larger than its memory. -/
def Overruns (i : ℕ) : Prop :=
  (segmentAround buf around i).IsGrass ∧ GRASS_SIZE < (segmentAround buf around i).pFilesz

/-- **The header fits**: what is read of it is in the buffer, the kernel fits its memory, and the
program, which is the only one, fits its pages. -/
structure Fits (i : ℕ) : Prop where
  reads : ∀ x ∈ headerReads buf around i, x % 2 ^ 32 + 4 ≤ 512
  grass : (segmentAround buf around i).IsGrass →
    (segmentAround buf around i).pFilesz ≤ GRASS_SIZE
  app : (segmentAround buf around i).IsApp →
    (segmentAround buf around i).pFilesz ≤ APPS_SIZE ∧
      ∀ j < i, ¬ (segmentAround buf around j).IsApp

end Condition

/-! ### The tables -/

section Tables

variable {pid : ℤ} {T T' T'' : Fin 256 → FrameMapping} {pages pages' : List ℕ}

theorem Adds.append (h : Adds pid T pages T') (h' : Adds pid T' pages' T'') :
    Adds pid T (pages ++ pages') T'' := by
  induction h' with
  | nil =>
      rw [List.append_nil]
      exact h
  | snoc _ i a hi ih =>
      rw [← List.append_assoc]
      exact ih.snoc i a hi

end Tables

/-! ### The loader -/

section Loader

variable {buf : Block} {around : ℕ → ℕ → UInt8}

theorem byteAround_of_lt {around : ℕ → UInt8} {x : ℕ} (h : x < 512) :
    byteAround buf around x = buf (Fin.ofNat 512 x) := by
  have hmod : x % 2 ^ 32 = x := Nat.mod_eq_of_lt (by omega)
  rw [byteAround, dif_pos (by rw [hmod]; exact h)]
  refine congrArg buf (Fin.ext ?_)
  simp only [Fin.ofNat]
  omega

theorem uintAround_of_uintAt {around : ℕ → UInt8} {x v : ℕ} (h : buf.uintAt x 4 = some v) :
    uintAround buf around x = v := by
  unfold Block.uintAt at h
  by_cases hx : x + 4 ≤ 512
  · rw [if_pos hx] at h
    rw [← Option.some.inj h]
    have hrange : List.range 4 = [0, 1, 2, 3] := rfl
    simp only [uintAround, hrange, List.foldr_cons, List.foldr_nil]
    rw [byteAround_of_lt (by omega), byteAround_of_lt (by omega), byteAround_of_lt (by omega),
      byteAround_of_lt (by omega)]
  · rw [if_neg hx] at h
    exact absurd h (by simp)

/-- A header in the buffer. -/
theorem segmentAround_of_programHeader {i : ℕ} {ph : Segment} (h : programHeader buf i = some ph) :
    segmentAround buf around i = ph := by
  unfold programHeader at h
  obtain ⟨phoff, hphoff, h⟩ := Option.bind_eq_some_iff.1 h
  obtain ⟨pOffset, hoffset, h⟩ := Option.bind_eq_some_iff.1 h
  obtain ⟨pVaddr, hvaddr, h⟩ := Option.bind_eq_some_iff.1 h
  obtain ⟨pFilesz, hfilesz, h⟩ := Option.bind_eq_some_iff.1 h
  obtain ⟨pMemsz, hmemsz, h⟩ := Option.bind_eq_some_iff.1 h
  obtain rfl := Option.some.inj h
  unfold segmentAround headerAt
  rw [uintAround_of_uintAt hphoff, uintAround_of_uintAt hoffset, uintAround_of_uintAt hvaddr,
    uintAround_of_uintAt hfilesz, uintAround_of_uintAt hmemsz]

variable {translation : Translation} {pid : ℤ} {reader : Reader} {argc : ℕ}
  {argv : Option (ℕ → UInt8)}

theorem watchHeader_of_loadHeader {w : Watch} {i : ℕ} {m' : Mmu}
    (h : loadHeader translation pid reader argc argv buf w.mmu i = some m')
    (hfits : ¬ Overruns buf around i) :
    ∃ w', watchHeader translation pid reader argc argv around buf w i = .ok w' ∧ w'.mmu = m' := by
  obtain ⟨ph, hph, hload⟩ := Option.bind_eq_some_iff.1 h
  unfold Overruns at hfits
  unfold watchHeader
  dsimp only
  rw [segmentAround_of_programHeader hph] at hfits ⊢
  unfold loadSegment at hload
  by_cases hmem : ph.pMemsz = 0
  · rw [if_pos hmem] at hload ⊢
    exact ⟨_, rfl, Option.some.inj hload⟩
  rw [if_neg hmem] at hload ⊢
  by_cases hgrass : ph.pVaddr = GRASS_ENTRY
  · rw [if_pos hgrass] at hload ⊢
    rw [if_neg fun hsize => hfits ⟨⟨hmem, hgrass⟩, hsize⟩]
    exact ⟨_, rfl, Option.some.inj hload⟩
  rw [if_neg hgrass] at hload ⊢
  by_cases happ : ph.pVaddr = APPS_ENTRY.toNat
  · rw [if_pos happ] at hload ⊢
    by_cases hpid : translation = .pageTable ∧ 32 ≤ pid
    · rw [if_pos hpid] at hload
      exact absurd hload (by simp)
    · rw [if_neg hpid] at hload ⊢
      rw [hload]
      exact ⟨_, rfl, rfl⟩
  · rw [if_neg happ] at hload
    exact absurd hload (by simp)

/-- **On a file whose headers are in the buffer this is the loader.** -/
theorem watchElf_of_elfLoad {m m₀ m' : Mmu} (hread : reader 0 m = (m₀, buf))
    (h : elfLoad translation pid reader argc argv m = some m')
    (hfits : ∀ i < phnumOf buf, ¬ Overruns buf around i) :
    ∃ w, watchElf translation pid reader argc argv around m = .ok w ∧ w.mmu = m' := by
  unfold elfLoad at h
  rw [hread] at h
  obtain ⟨n, hn, hrun⟩ := Option.bind_eq_some_iff.1 h
  have hcount : phnumOf buf = n := by
    rw [phnumOf, hn]
    rfl
  unfold watchElf
  rw [hread]
  dsimp only
  rw [hcount] at hfits ⊢
  refine Runs.foldlM_range_some (f := loadHeader translation pid reader argc argv buf)
    (I := fun k m' => ∃ w, watchHeaders translation pid reader argc argv around buf m₀ k = .ok w ∧
      w.mmu = m') ⟨_, rfl, rfl⟩ n ?_ m' hrun
  rintro i m₁ m₂ hi ⟨w, hw, rfl⟩ hstep
  obtain ⟨w', hw', hmmu⟩ := watchHeader_of_loadHeader hstep (hfits i hi)
  exact ⟨w', (Runs.foldlM_range_succ_ok hw).trans hw', hmmu⟩

/-- What `load_grass` does not note as a store is not changed. -/
theorem loadGrass_byteAt (file : ℕ → UInt8) (ph : ProgramHeader) (m : Mmu) {x : ℕ}
    (hsize : GRASS_ENTRY + ph.pFilesz + 512 ≤ 2 ^ 32)
    (hx : ∀ y ∈ grassWrites ph.pFilesz, ¬ (y.1 ≤ x ∧ x < y.1 + y.2)) :
    (loadGrass (fileReader file) ph m).byteAt x = m.byteAt x := by
  have hloop := Runs.foldl_range (f := grassBlock (fileReader file) (ph.pOffset / 512))
    (I := GrassCopied file (ph.pOffset / 512) m)
    (⟨fun x => by rw [if_neg (by omega)], rfl⟩) ph.nblocks fun _ _ _ h => h.grassBlock
  have hzero := hx _ (List.mem_append_right _ (List.mem_singleton_self _))
  dsimp only at hzero
  rw [Nat.mod_eq_of_lt (by omega)] at hzero
  change (Paging.zeroBytes _ _ _).byteAt x = _
  rw [Paging.byteAt_zeroBytes, if_neg hzero, hloop.byte x]
  refine if_neg ?_
  rintro ⟨hlo, hhi⟩
  -- the block in which the byte is
  have hn : (x - GRASS_ENTRY) / 512 < (ph.pFilesz + 511) / 512 := by
    change x < GRASS_ENTRY + 512 * ((ph.pFilesz + 511) / 512) at hhi
    omega
  refine hx _ (List.mem_append_left _ (List.mem_map_of_mem (List.mem_range.2 hn))) ?_
  dsimp only
  rw [Nat.mod_eq_of_lt (by omega)]
  omega

end Loader

/-! ### The run -/

section Run

variable {translation : Translation} {pid : ℤ} {reader : Reader} {argc : ℕ}
  {argv : Option (ℕ → UInt8)} {around : ℕ → ℕ → UInt8} {buf : Block}
  {T : Fin 256 → FrameMapping} {w : Watch} {k : ℕ}

theorem pagesTo_succ (buf : Block) (around : ℕ → ℕ → UInt8) (k : ℕ) :
    pagesTo buf around (k + 1) = pagesTo buf around k ++ headerPages buf around k := by
  rw [pagesTo, pagesTo, List.range_succ, List.flatMap_append, List.flatMap_singleton]

/-- **The invariant of the loop of `elf_load`**: what has been noted is what the headers say. -/
structure Passed (pid : ℤ) (buf : Block) (around : ℕ → ℕ → UInt8) (T : Fin 256 → FrameMapping)
    (k : ℕ) (w : Watch) : Prop where
  adds : Adds pid T (pagesTo buf around k) w.mmu.table
  reads : w.reads = (List.range k).flatMap (headerReads buf around)
  writes : w.writes = (List.range k).flatMap (headerWrites buf around)

/-- `load_grass` maps nothing. -/
theorem loadGrass_table (hreader : reader.KeepsTable) (ph : ProgramHeader) (m : Mmu) :
    (loadGrass reader ph m).table = m.table := by
  have hloop : ((List.range ph.nblocks).foldl (grassBlock reader (ph.pOffset / 512)) m).table =
      m.table := by
    refine Runs.foldl_range (f := grassBlock reader (ph.pOffset / 512))
      (I := fun _ m' => m'.table = m.table) rfl ph.nblocks ?_
    intro n m' _ h
    exact (hreader (ph.pOffset / 512 + n) m').trans h
  exact hloop

/-- The notes of one more header. -/
theorem Passed.step (h : Passed pid buf around T k w) {w' : Watch}
    (hadds : Adds pid w.mmu.table (headerPages buf around k) w'.mmu.table)
    (hreads : w'.reads = w.reads ++ headerReads buf around k)
    (hwrites : w'.writes = w.writes ++ headerWrites buf around k) :
    Passed pid buf around T (k + 1) w' := by
  refine ⟨?_, ?_, ?_⟩
  · rw [pagesTo_succ]
    exact h.adds.append hadds
  · rw [hreads, h.reads, List.range_succ, List.flatMap_append, List.flatMap_singleton]
  · rw [hwrites, h.writes, List.range_succ, List.flatMap_append, List.flatMap_singleton]

/-- **One header**: the loader overruns, or stops, or goes on, as the header says. -/
theorem Passed.watchHeader (hreader : reader.KeepsTable) (h : Passed pid buf around T k w) :
    (Overruns buf around k ∧
      watchHeader translation pid reader argc argv around buf w k = .error .overruns) ∨
    (Halts translation pid buf around T k ∧
      watchHeader translation pid reader argc argv around buf w k = .error .fatal) ∨
    (¬ Overruns buf around k ∧ ¬ Halts translation pid buf around T k ∧
      ∃ w', watchHeader translation pid reader argc argv around buf w k = .ok w' ∧
        Passed pid buf around T (k + 1) w') := by
  generalize hph : segmentAround buf around k = ph
  unfold Egos.watchHeader Overruns Halts
  dsimp only
  rw [hph]
  by_cases hmem : ph.pMemsz = 0
  · -- the segment takes no memory
    have hgrass : ¬ ph.IsGrass := fun hg => hg.1 hmem
    have happ : ¬ ph.IsApp := fun ha => ha.1 hmem
    rw [if_pos hmem]
    refine Or.inr (Or.inr ⟨fun hh => hgrass hh.1, fun hh => hh.1 hmem, _, rfl, h.step ?_ ?_ ?_⟩)
    · rw [headerPages, hph, if_neg happ]
      exact .nil
    · rw [headerReads, hph, if_pos hmem]
      rfl
    · rw [headerWrites, hph, if_neg hgrass, List.append_nil]
      rfl
  · rw [if_neg hmem]
    have hreads : headerReads buf around k =
        [20, 8, 16, 4].map (headerAt buf around k + ·) := by
      rw [headerReads, hph, if_neg hmem]
    by_cases hvaddr : ph.pVaddr = GRASS_ENTRY
    · -- the kernel
      have hgrass : ph.IsGrass := ⟨hmem, hvaddr⟩
      rw [if_pos hvaddr]
      by_cases hsize : GRASS_SIZE < ph.pFilesz
      · rw [if_pos hsize]
        exact Or.inl ⟨⟨hgrass, hsize⟩, rfl⟩
      · rw [if_neg hsize]
        refine Or.inr (Or.inr ⟨fun hh => hsize hh.2, fun hh => hh.2.1 hgrass, _, rfl,
          h.step ?_ ?_ ?_⟩)
        · rw [headerPages, hph, if_neg fun ha => ha.not_isGrass hgrass]
          change Adds pid w.mmu.table [] (loadGrass reader ph.toProgramHeader w.mmu).table
          rw [loadGrass_table hreader]
          exact .nil
        · rw [hreads]
          rfl
        · rw [headerWrites, hph, if_pos hgrass]
    · rw [if_neg hvaddr]
      have hgrass : ¬ ph.IsGrass := fun hg => hvaddr hg.2
      by_cases hentry : ph.pVaddr = APPS_ENTRY.toNat
      · -- a program
        have happ : ph.IsApp := ⟨hmem, hentry⟩
        have hpages : headerPages buf around k = segmentPages ph.pFilesz := by
          rw [headerPages, hph, if_pos happ]
        rw [if_pos hentry]
        by_cases hpid : translation = .pageTable ∧ 32 ≤ pid
        · rw [if_pos hpid]
          exact Or.inr (Or.inl ⟨⟨hmem, hgrass, fun _ => Or.inl hpid⟩, rfl⟩)
        · rw [if_neg hpid]
          have hcount : used w.mmu.table + (segmentPages ph.pFilesz).length =
              used T + (pagesTo buf around (k + 1)).length := by
            rw [h.adds.used_eq, pagesTo_succ, hpages, List.length_append, Nat.add_assoc]
          rcases loadApp_cases pid hreader argc argv ph.toProgramHeader w.mmu with
            ⟨m', hload, hadds⟩ | ⟨hload, hfull⟩
          · rw [hload]
            have hroom := used_le m'.table
            rw [hadds.used_eq] at hroom
            refine Or.inr (Or.inr ⟨fun hh => hgrass hh.1, ?_, _, rfl, h.step ?_ ?_ ?_⟩)
            · rintro ⟨-, -, hstop⟩
              rcases hstop happ with hpid' | hfull
              · exact hpid hpid'
              · rw [← hcount] at hfull
                exact absurd hfull (by omega)
            · rw [hpages]
              exact hadds
            · rw [hreads]
              rfl
            · rw [headerWrites, hph, if_neg hgrass, List.append_nil]
              rfl
          · rw [hload]
            rw [hcount] at hfull
            exact Or.inr (Or.inl ⟨⟨hmem, hgrass, fun _ => Or.inr hfull⟩, rfl⟩)
      · -- any other address
        rw [if_neg hentry]
        exact Or.inr (Or.inl ⟨⟨hmem, hgrass, fun ha => absurd ha.2 hentry⟩, rfl⟩)

end Run

end Egos
