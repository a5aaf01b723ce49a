/-
**What runs is what was built.**

`tools/mkfs.c` puts the binaries of the kernel and of the commands into an image.  The running
system reads them from the disk, while the paging device keeps its frames on the same disk, and
loads them with `elf_load`.  The binaries come into memory as they were on the host, whatever has
happened before: those of the kernel on every board, and a command, for whose blocks `sys_proc` asks
the file server, on QEMU, or if no store of the loader finds its slot evicted.

Main definitions:

* `Egos.execRead`, `Egos.appRead` — the readers of the kernel and of `sys_proc`;
* `Egos.IsElf` — a binary with one segment;
* `Egos.CodeImage` — the code pages that a process has been given.

Main results:

* `Egos.kernel_loaded_from_image` — **the binaries of the kernel are loaded as they were built**;
* `Egos.command_loaded_from_image` — **a command is found and loaded as it was built.**
-/

import Egos.DiskReader
import Egos.MkfsSpace
import Egos.Workdir

set_option autoImplicit false

namespace Egos

/-! ### Binaries -/

/-- The first block of a file. -/
def firstBlock (file : List UInt8) : Block := fun k => file.getD k 0

/-- The bytes of a file, followed by zeros. -/
def bytesOf (file : List UInt8) (x : ℕ) : UInt8 := file.getD x 0

/-- **A binary with one segment**, which is in the file. -/
structure IsElf (file : List UInt8) (ph : Segment) : Prop where
  long : 512 ≤ file.length
  header : ∃ n i, phnum (firstBlock file) = some n ∧ i < n ∧
    programHeader (firstBlock file) i = some ph ∧
    ∀ j < n, j ≠ i → ∃ ph, programHeader (firstBlock file) j = some ph ∧ ph.pMemsz = 0
  memsz : 0 < ph.pMemsz
  aligned : ph.pOffset % 512 = 0
  inside : ph.pOffset + ph.pFilesz ≤ file.length

/-- The code page `c` of a segment. -/
def codePage (file : ℕ → UInt8) (ph : ProgramHeader) (c : ℕ) : Page :=
  fun j k => segmentByte file ph (4096 * c + 512 * j.val + k.val)

/-- `elf_load` loads a program by `load_app`. -/
theorem loadSegment_of_app {translation : Translation} {pid : ℤ} {reader : Reader} {argc : ℕ}
    {argv : Option (ℕ → UInt8)} {ph : Segment} {m : Mmu} (hmem : ph.pMemsz ≠ 0)
    (hvaddr : ph.pVaddr = APPS_ENTRY.toNat) (hpid : translation = .pageTable → pid < 32) :
    loadSegment translation pid reader argc argv ph m =
      loadApp pid reader argc argv ph.toProgramHeader m := by
  have hgrass : ph.pVaddr ≠ GRASS_ENTRY := by
    rw [hvaddr]
    decide
  have hmap : ¬ (translation = .pageTable ∧ 32 ≤ pid) := by
    rintro ⟨htr, hlarge⟩
    have := hpid htr
    omega
  rw [loadSegment, if_neg hmem, if_neg hgrass, if_pos hvaddr, if_neg hmap]

theorem GrassImage.congr {file file' : ℕ → UInt8} {ph : ProgramHeader} {m m' : Mmu}
    (h : GrassImage file ph m m') (heq : segmentByte file ph = segmentByte file' ph) :
    GrassImage file' ph m m' :=
  ⟨fun x hx hx' => (h.region x hx hx').trans (congrFun heq _), h.outside, h.rest⟩

theorem AppImage.congr {file file' : ℕ → UInt8} {ph : ProgramHeader} {pid : ℤ} {m m' : Mmu}
    (h : AppImage file ph pid m m') (heq : segmentByte file ph = segmentByte file' ph) :
    AppImage file' ph pid m m' := by
  obtain ⟨⟨f, hinj, hcode, hother⟩, hkept⟩ := h
  refine ⟨⟨f, hinj, fun c => ?_, hother⟩, hkept⟩
  obtain ⟨hfree, htable, p, hp, hbyte⟩ := hcode c
  exact ⟨hfree, htable, p, hp, fun j k => (hbyte j k).trans (congrFun heq _)⟩

/-- **The code pages of a process**, as `paging_read` returns them, are those of the segment; the
other processes have the frames that they had. -/
structure CodeImage (file : ℕ → UInt8) (ph : ProgramHeader) (pid : ℤ) (m m' : Mmu) : Prop where
  code : ∀ c < 3, ∃ i, m'.Owned i pid ∧ (m'.table i).pageNo = 0x8005 + c ∧
    (m'.toPaging.pagingRead i false).2.mem (m'.toPaging.pagingRead i false).1 =
      codePage file ph c
  other : ∀ i q, q ≠ 0 → q ≠ pid → m.Owned i q → m'.table i = m.table i

/-- **The reader delivers a file**: its first `N` blocks are read from the files of the disk, and
have the bytes of the file. -/
structure DiskReader.Delivers (r : DiskReader) (disk : ℕ → Block) (N : ℕ) (file : List UInt8) :
    Prop where
  islocal : r.Local disk N
  length : file.length ≤ 512 * N
  bytes : ∀ n < N, ∀ k : Fin 512, 512 * n + k < file.length →
    r.block disk n k = file.getD (512 * n + k) 0

namespace DiskReader.Delivers

variable {m : Mmu} {r : DiskReader} {N : ℕ} {file : List UInt8} {ph : Segment}

/-- The headers are those of the binary. -/
theorem first (h : r.Delivers m.disk N file) (helf : IsElf file ph) :
    r.block m.disk 0 = firstBlock file := by
  have hlong := helf.long
  have hlength := h.length
  funext k
  have hk := h.bytes 0 (by omega) k (by omega)
  rwa [Nat.mul_zero, Nat.zero_add] at hk

/-- The bytes of the segment are those of the binary. -/
theorem segment (h : r.Delivers m.disk N file) (helf : IsElf file ph) {x : ℕ}
    (hx : x < ph.pFilesz) :
    r.block m.disk ((ph.pOffset + x) / 512) (Fin.ofNat 512 (ph.pOffset + x)) =
      bytesOf file (ph.pOffset + x) := by
  have hinside := helf.inside
  have hlength := h.length
  have hmod : (Fin.ofNat 512 (ph.pOffset + x)).val = (ph.pOffset + x) % 512 := rfl
  rw [h.bytes _ (by omega) _ (by omega), hmod, bytesOf]
  congr 1
  omega

/-- **`elf_load` loads the segment of the binary**, as if its blocks had been read beforehand. -/
theorem elfLoad_eq (h : r.Delivers m.disk N file) (helf : IsElf file ph) (hok : m.toPaging.Ok)
    (translation : Translation) (pid : ℤ) (argc : ℕ) (argv : Option (ℕ → UInt8)) :
    elfLoad translation pid r.read argc argv m =
      loadSegment translation pid (exchange r.meanwhile (r.block m.disk)) argc argv ph
        ((r.meanwhile 0).foldl VmAct.run m) := by
  have hlong := helf.long
  have hinside := helf.inside
  have hlength := h.length
  have hfirst := h.first helf
  have hblocks : ph.nblocks = (ph.pFilesz + 511) / 512 := rfl
  have haligned := helf.aligned
  obtain ⟨n, i, hn, hi, hph, hother⟩ := helf.header
  rw [DiskReader.elfLoad_eq translation pid argc argv hok h.islocal (by omega)]
  · rw [← hfirst] at hn hph hother
    exact elfLoad_of_only rfl hn hi hph hother
  · intro n' j ph' hn' hj hph' hmem
    rw [hfirst] at hn' hph'
    obtain rfl : n = n' := Option.some.inj (hn.symm.trans hn')
    by_cases hji : j = i
    · subst hji
      obtain rfl : ph = ph' := Option.some.inj (hph.symm.trans hph')
      rw [ProgramHeader.Inside]
      omega
    · obtain ⟨ph'', hph'', hzero⟩ := hother j hj hji
      obtain rfl : ph'' = ph' := Option.some.inj (hph''.symm.trans hph')
      exact absurd hzero hmem

/-- The first block says what the binary is. -/
theorem isProgram (h : r.Delivers m.disk N file) (hok : m.toPaging.Ok) (helf : IsElf file ph)
    (hvaddr : ph.pVaddr = APPS_ENTRY.toNat) (hsize : ph.pFilesz ≤ APPS_SIZE) :
    IsProgram (r.read 0 m).2 ph := by
  have hlong := helf.long
  have hlength := h.length
  have hagree := DiskReader.read_agrees h.islocal 0 (by omega) m hok.spares
  have hbuf : (r.read 0 m).2 = firstBlock file := by
    rw [hagree]
    exact h.first helf
  rw [hbuf]
  exact ⟨helf.header, helf.memsz, hvaddr, hsize⟩

/-- The pages that the blocks make. -/
theorem filePage_eq (h : r.Delivers m.disk N file) (helf : IsElf file ph) (c : ℕ) :
    filePage (r.block m.disk) (ph.pOffset / 512) ph.pFilesz c =
      codePage (bytesOf file) ph.toProgramHeader c := by
  have haligned := helf.aligned
  funext j k
  have hj := j.isLt
  have hk := k.isLt
  by_cases hx : 4096 * c + 512 * j.val + k.val < ph.pFilesz
  · have hblock : (ph.pOffset + (4096 * c + 512 * j.val + k.val)) / 512 =
        ph.pOffset / 512 + (8 * c + j) := by omega
    have hbyte : Fin.ofNat 512 (ph.pOffset + (4096 * c + 512 * j.val + k.val)) = k := by
      refine Fin.ext ?_
      change (ph.pOffset + (4096 * c + 512 * j.val + k.val)) % 512 = k.val
      omega
    have hseg := h.segment helf hx
    rw [hblock, hbyte] at hseg
    rw [filePage, if_pos hx, codePage, segmentByte, if_pos hx]
    exact hseg
  · rw [filePage, if_neg hx, codePage, segmentByte, if_neg hx]

section Quiet

variable (h : r.Delivers m.disk N file) (helf : IsElf file ph) (hok : m.toPaging.Ok)
  (hquiet : ∀ n, r.meanwhile n = [])
include h helf hok hquiet

/-- With a reader that does not let other processes run, the segment is loaded from the bytes. -/
theorem elfLoad_quiet (translation : Translation) (pid : ℤ) (argc : ℕ)
    (argv : Option (ℕ → UInt8)) :
    ∃ onDisk, segmentByte onDisk ph.toProgramHeader =
        segmentByte (bytesOf file) ph.toProgramHeader ∧
      elfLoad translation pid r.read argc argv m =
        loadSegment translation pid (fileReader onDisk) argc argv ph m := by
  refine ⟨fun x => r.block m.disk (x / 512) (Fin.ofNat 512 x), ?_, ?_⟩
  · funext x
    unfold segmentByte
    split
    · exact h.segment helf ‹_›
    · rfl
  · have hreader : exchange r.meanwhile (r.block m.disk) =
        fileReader fun x => r.block m.disk (x / 512) (Fin.ofNat 512 x) := by
      rw [funext hquiet]
      refine congrArg (exchange _) (funext fun n => funext fun k => ?_)
      have hk := k.isLt
      have hbyte : Fin.ofNat 512 (512 * n + k.val) = k := by
        refine Fin.ext ?_
        change (512 * n + k.val) % 512 = k.val
        omega
      change _ = r.block m.disk ((512 * n + k.val) / 512) (Fin.ofNat 512 (512 * n + k.val))
      rw [hbyte, show (512 * n + k.val) / 512 = n by omega]
    rw [h.elfLoad_eq helf hok, hreader, hquiet]
    rfl

/-- **A process of the kernel is loaded as it is.** -/
theorem appImage (translation : Translation) (pid : ℤ) (argc : ℕ) (argv : Option (ℕ → UInt8))
    (hvaddr : ph.pVaddr = APPS_ENTRY.toNat) (hsize : ph.pFilesz ≤ APPS_SIZE)
    (hroom : used m.table + 5 ≤ 256) (hpid : translation = .pageTable → pid < 32) :
    ∃ m', elfLoad translation pid r.read argc argv m = some m' ∧
      AppImage (bytesOf file) ph.toProgramHeader pid m m' ∧
      Adds pid m.table appPages m'.table := by
  obtain ⟨onDisk, hseg, heq⟩ := h.elfLoad_quiet helf hok hquiet translation pid argc argv
  obtain ⟨m', hload, himage⟩ :=
    loadApp_appImage hok hroom helf.aligned hsize pid onDisk argc argv
  obtain ⟨m'', hload', hadds⟩ := loadApp_adds hroom hsize pid
    (exchange_keepsTable _ (fileBlock onDisk)) argc argv
  obtain rfl : m' = m'' := Option.some.inj (hload.symm.trans hload')
  refine ⟨m', ?_, himage.congr hseg, hadds⟩
  rw [heq, loadSegment_of_app helf.memsz.ne' hvaddr hpid]
  exact hload

end Quiet

/-- **A program is loaded as it is** while other processes run, on QEMU, or if no store of the
loader finds its slot evicted. -/
theorem codeImage {own : Fin 256 → Page} {pid : ℤ} (h : r.Delivers m.disk N file)
    (helf : IsElf file ph) (hpriv : m.Private own) (hnew : m.New pid)
    (hlive : ∀ n, ∀ b ∈ r.meanwhile n, b.Live pid) (hvaddr : ph.pVaddr = APPS_ENTRY.toNat)
    (hsize : ph.pFilesz ≤ APPS_SIZE) (hroom : used m.table + 5 ≤ 256) {translation : Translation}
    (hpid : translation = .pageTable → pid < 32)
    (hplace : m.platform ≠ .arty ∨
      LoadsInPlace pid r.read ph.toProgramHeader (r.read 0 m).1) (argc : ℕ)
    (argv : Option (ℕ → UInt8)) :
    ∃ m' own', elfLoad translation pid r.read argc argv m = some m' ∧ m'.Private own' ∧
      CodeImage (bytesOf file) ph.toProgramHeader pid m m' := by
  have hlong := helf.long
  have hinside := helf.inside
  have hlength := h.length
  have haligned := helf.aligned
  have hblocks : ph.nblocks = (ph.pFilesz + 511) / 512 := rfl
  obtain ⟨htable, hplatform, hcurr, own₀, hpriv₀, -⟩ :=
    VmAct.foldl_run_spec (r.meanwhile 0) hpriv (hlive 0) hnew.curr
  have hspares := Mmu.spares_acts (r.meanwhile 0) hpriv.ok
  rw [r.read_fst] at hplace
  generalize hm₀ : (r.meanwhile 0).foldl VmAct.run m = m₀ at *
  have hnew₀ : ∀ i, ¬ m₀.Owned i pid := fun i hi =>
    hnew.frames i ((Mmu.owned_congr htable i pid).1 hi)
  -- the stores find their slots
  have hreader : (exchange r.meanwhile (r.block m.disk)).Spares := fun n m hok =>
    Mmu.spares_acts (r.meanwhile n) hok
  have hplace' :
      LoadsInPlace pid (exchange r.meanwhile (r.block m.disk)) ph.toProgramHeader m₀ := by
    rcases hplace with hqemu | hplace
    · exact loadsInPlace_of_qemu hreader hspares.ok (by rw [hplatform]; exact hqemu) pid _
    · exact hplace.congr r.read_spares (DiskReader.read_agrees h.islocal) hspares (by
        rw [ProgramHeader.Inside]
        omega)
  obtain ⟨m', hload, -⟩ := loadApp_adds (by rw [htable]; exact hroom) hsize pid
    (exchange_keepsTable r.meanwhile (r.block m.disk)) argc argv
  obtain ⟨own', pages, hl, hcode⟩ :=
    loadApp_loaded hpriv₀ hnew.pos hcurr hnew₀ hsize hlive hplace' hload
  refine ⟨m', own', ?_, hl.priv, ?_, ?_⟩
  · rw [h.elfLoad_eq helf hpriv.ok, hm₀, loadSegment_of_app helf.memsz.ne' hvaddr hpid]
    exact hload
  · intro c hc
    obtain ⟨i, hi, hpage⟩ := hl.mapped _ _ (hcode c hc)
    refine ⟨i, hi, hpage, ?_⟩
    rw [← h.filePage_eq helf c]
    exact hl.pagingRead_eq hi (by rw [hpage]; exact hcode c hc)
  · intro i q hq hqpid hi
    have hi₀ := (Mmu.owned_congr htable i q).2 hi
    exact (hl.other i q hq hqpid hi₀).1.trans (congrFun htable i)

end DiskReader.Delivers

/-! ### The image on the disk -/

namespace Mkfs

variable {host : List UInt8 → HostFile} {kernels : List HostFile} {contents : List (List UInt8)}
  {buf : Buf} {image : List UInt8}

/-- The file system of the image, on any disk that has it. -/
theorem files_of_main (hkernels : kernels.length ≤ grassNexec) (hlen : contents.length ≤ ninodes)
    (hfits : ∀ entry ∈ contents, Fits host entry)
    (hmain : main host kernels contents buf = .ok image) :
    ∃ F : ℕ → SparseArray Block nullBlock,
      (∀ i (h : i < contents.length), Holds host (contents.get ⟨i, h⟩) (F i)) ∧
      ∀ dev : Disk, (∀ b, grassFsStart ≤ b → b < grassFsStart + fsDiskBlocks →
        dev b = Mkfs.imageBlock image b) → ∀ ino < contents.length, ∀ b < 2 ^ 32,
          treediskRead ⟨fsDisk, 0⟩ ino b dev = (F ino).read b := by
  obtain ⟨-, fs, hfs, -, hblocks⟩ := main_ok hkernels hmain
  obtain ⟨u, fs', hfs', F, hholds, -, d, hr, hs⟩ :=
    (mkfs_spec host contents hlen hfits buf).total rfl fun e fs he _ => by
      rw [hfs] at he
      simp at he
  obtain rfl : fs = fs' := by
    rw [hfs] at hfs'
    exact (EStateM.Result.ok.inj hfs').2
  refine ⟨F, hholds, fun dev hdev ino hino b hb => ?_⟩
  have hdisk : (fsDiskArray d 0).HoldsOff ∅ d dev := by
    refine ⟨trivial, fun x _ => ?_⟩
    by_cases hx : x < fsDiskBlocks
    · change (if x < fsDiskBlocks then _ else _) = _
      rw [if_pos hx, hdev _ (Nat.le_add_right _ _) (by omega), hblocks x hx]
      exact hs.2 x (Set.notMem_empty x)
    · exact if_neg hx
  have hino' : ino < 64 * 2 := lt_of_lt_of_le hino hlen
  rw [treediskRead_spec hr hdisk ino b hb, if_pos hino']

end Mkfs

open Mkfs

/-- `grass_read` for the segment 0, and `sys_proc_read` for the others.  They read the disk
themselves, so that no other process runs. -/
def execRead (k : ℕ) : DiskReader where
  before _ := []
  after _ := []
  block disk n := disk (grassExecStart + grassExecSegment * k + n)

/-- `app_read`, by which `sys_proc` asks the file server.  Other processes run until the file server
reads the block, and until the block has arrived.  If the file has no such block, the buffer keeps
what it held. -/
def appRead (before after : ℕ → List VmAct) (stale : ℕ → Block) (ino : ℕ) : DiskReader where
  before := before
  after := after
  block disk n := (treediskRead ⟨fsDisk, 0⟩ ino (n % 2 ^ 32) disk).getD (stale n)

/-- The first blocks of the files, as the directory server reads them. -/
def fileBlocks (stale : ℤ → Block) (disk : ℕ → Block) : ℤ → Block := fun ino =>
  (treediskRead ⟨fsDisk, 0⟩ (toUint ino) 0 disk).getD (stale ino)

section Image

variable {host : List UInt8 → HostFile} {kernels : List HostFile} {contents : List (List UInt8)}
  {buf : Buf} {image : List UInt8} {p : Paging} {es : List Mmu.Event} {m : Mmu}

/-- The image is still on the disk. -/
theorem image_kept (hdisk : ∀ b < 8192, p.disk b = Mkfs.imageBlock image b)
    (hrun : (Mmu.init p).events es = some m) :
    m.toPaging.Ok ∧ ∀ b, 2048 ≤ b → b < 8192 → m.disk b = Mkfs.imageBlock image b := by
  have hspares := Mmu.events_spares (Paging.pagingInit_ok p) hrun
  exact ⟨hspares.ok, fun b hb hb' => (hspares.files b hb (by omega)).trans (hdisk b hb')⟩

/-- The binary of the kernel with a number is read from the image. -/
theorem execRead_delivers (hkernels : kernels.length ≤ grassNexec)
    (hmain : main host kernels contents buf = .ok image)
    (hkept : ∀ b, 2048 ≤ b → b < 8192 → m.disk b = Mkfs.imageBlock image b) {i : ℕ}
    (hi : i < kernels.length) :
    (execRead i).Delivers m.disk 256 (kernels.get ⟨i, hi⟩).bytes := by
  obtain ⟨hsizes, fs, -, hparts, -⟩ := main_ok hkernels hmain
  have hsize : (kernels.get ⟨i, hi⟩).bytes.length ≤ 131072 :=
    (hsizes _ (List.get_mem kernels ⟨i, hi⟩)).2
  have hseg : grassExecStart + grassExecSegment * i = 2048 + 256 * i := rfl
  have hi8 : i < 8 := lt_of_lt_of_le hi hkernels
  refine ⟨?_, by omega, ?_⟩
  · intro disk' hsame n hn
    exact hsame _ (by omega) (by omega)
  · intro n hn k _
    change m.disk (grassExecStart + grassExecSegment * i + n) k = _
    rw [hkept _ (by omega) (by omega)]
    exact hparts i hi n k hn

/-- A file of the host with 1212 bytes. -/
def hostFile (file : ℕ → UInt8) : HostFile where
  bytes := (List.range 1212).map file
  chunk _ := 1212
  chunk_pos _ := by decide

theorem hostFile_getD (file : ℕ → UInt8) {x : ℕ} (hx : x < 1212) :
    (hostFile file).bytes.getD x 0 = file x := by
  have hlen : x < ((List.range 1212).map file).length := by
    rwa [List.length_map, List.length_range]
  rw [hostFile, List.getD_eq_getElem _ _ hlen, List.getElem_map, List.getElem_range]

/-- It is a binary if its first block says so. -/
theorem hostFile_isElf {file : ℕ → UInt8} {pVaddr : ℕ} (hn : phnum (fileBlock file 0) = some 1)
    (hph : programHeader (fileBlock file 0) 0 = some ⟨⟨512, 700⟩, pVaddr, 800⟩) :
    IsElf (hostFile file).bytes ⟨⟨512, 700⟩, pVaddr, 800⟩ := by
  have hlen : (hostFile file).bytes.length = 1212 := by
    rw [hostFile, List.length_map, List.length_range]
  have hfirst : firstBlock (hostFile file).bytes = fileBlock file 0 := by
    funext k
    have hk := k.isLt
    rw [firstBlock, hostFile_getD file (by omega)]
    exact congrArg _ (Nat.zero_add k.val).symm
  refine ⟨by rw [hlen]; decide, ⟨1, 0, ?_, by decide, ?_, ?_⟩, Nat.succ_pos _, Nat.mod_self _, ?_⟩
  · rw [hfirst]
    exact hn
  · rw [hfirst]
    exact hph
  · intro j hj hne
    omega
  · exact hlen.ge

/-- The text of an entry of a directory is well formed. -/
def IsEntry (name : List UInt8) (gap ino : ℕ) : Prop :=
  name ≠ [] ∧ space ∉ name ∧ 0 ∉ name ∧ 0 < gap ∧ ino < 2 ^ 31

instance (name : List UInt8) (gap ino : ℕ) : Decidable (IsEntry name gap ino) :=
  inferInstanceAs (Decidable (_ ∧ _ ∧ _ ∧ _ ∧ _))

/-- An entry of a directory, with its name as characters. -/
def entryOf (name : List Char) (gap ino : ℕ) (h : IsEntry (chars name) gap ino) : DirEntry where
  name := chars name
  gap := gap
  ino := ino
  name_ne := h.1
  name_space := h.2.1
  name_nul := h.2.2.1
  gap_pos := h.2.2.2.1
  ino_lt := h.2.2.2.2

/-- The entry for `/bin` in the root directory. -/
def binEntry : DirEntry := entryOf ['b', 'i', 'n', '/'] 3 1 (by decide)

/-- A board whose disk has the image. -/
def imageBoard (platform : Platform) (image : List UInt8) : Paging :=
  { Paging.board platform fun _ => 0 with disk := Mkfs.imageBlock image }

/-- The first process is loaded and entered. -/
def firstProcess (i : ℕ) : List Mmu.Event :=
  [.load .softTlb 1 (execRead i) 0 none, .call (.softTlbSwitch 1)]

/-- **The run in which the first process is loaded.** -/
theorem exists_firstProcess (hkernels : kernels.length ≤ grassNexec)
    (hmain : main host kernels contents buf = .ok image)
    (hdisk : ∀ b < 8192, p.disk b = Mkfs.imageBlock image b) {i : ℕ} (hi : i < kernels.length)
    {ph : Segment} (helf : IsElf (kernels.get ⟨i, hi⟩).bytes ph)
    (hvaddr : ph.pVaddr = APPS_ENTRY.toNat) (hsize : ph.pFilesz ≤ APPS_SIZE) :
    ∃ m, (Mmu.init p).events (firstProcess i) = some m ∧
      Runs.EveryStep Mmu.event (fun m e _ => e.Proper m) (Mmu.init p) (firstProcess i) ∧
      used m.table = 5 ∧ m.currVmPid = 1 ∧ m.platform = p.platform ∧
      ∀ j q, m.Owned j q → q = 1 := by
  have hok : (Mmu.init p).toPaging.Ok := Paging.pagingInit_ok p
  obtain ⟨-, hkept⟩ :=
    image_kept hdisk (show (Mmu.init p).events [] = some (Mmu.init p) from rfl)
  have hdelivers := execRead_delivers hkernels hmain hkept hi
  have hused : used (Mmu.init p).table = 0 := by simp [used, Mmu.init]
  have hfree : ∀ j q, ¬ (Mmu.init p).Owned j q := by
    intro j q hj
    exact absurd hj.1 (by simp [Mmu.init])
  obtain ⟨m₁, hload, -, hadds⟩ := hdelivers.appImage helf hok (fun _ => rfl) .softTlb 1 0 none
    hvaddr hsize (by omega) (by decide)
  have htable := Mmu.softTlbSwitch_table m₁ 1
  have hspares := spares_elfLoad (execRead i).read_spares hok hload
  have hswitch := Mmu.spares_softTlbSwitch hspares.ok 1
  refine ⟨m₁.softTlbSwitch 1, ?_, ?_, ?_, Mmu.softTlbSwitch_currVmPid m₁ 1,
    hswitch.platform.trans hspares.platform, ?_⟩
  · rw [Mmu.events, firstProcess, List.foldlM_cons]
    change (elfLoad .softTlb 1 (execRead i).read 0 none (Mmu.init p) >>= _) = _
    rw [hload]
    rfl
  · have hcurr : (-1 : ℤ) ≠ 1 := by decide
    intro m' hm'
    refine ⟨⟨⟨by decide, hcurr, fun j => hfree j 1⟩, fun _ _ hb => absurd hb List.not_mem_nil,
      ph, hdelivers.isProgram hok helf hvaddr hsize⟩, ?_⟩
    intro m'' _
    exact ⟨one_ne_zero, trivial⟩
  · rw [htable, hadds.used_eq, hused]
    rfl
  · intro j q hj
    have hj₁ := (Mmu.owned_congr htable j q).1 hj
    rcases hadds.cases j with hold | ⟨-, a, -, hnew⟩
    · exact absurd (by rwa [Mmu.Owned, ← hold]) (hfree j q)
    · exact (congrArg FrameMapping.pid hnew ▸ hj₁.2).symm

/-- The block of a text is read from the disk. -/
theorem fileBlocks_text {F : ℕ → SparseArray Block nullBlock} {disk : ℕ → Block}
    (hread : ∀ ino < contents.length, ∀ b < 2 ^ 32,
      treediskRead ⟨fsDisk, 0⟩ ino b disk = (F ino).read b)
    (hholds : ∀ i (h : i < contents.length), Holds host (contents.get ⟨i, h⟩) (F i))
    (hlen : contents.length ≤ ninodes) {ino : ℕ} {t : List UInt8} (ht : contents[ino]? = some t)
    (hname : ¬ isName t) (stale : ℤ → Block) :
    fileBlocks stale disk ino = fun k : Fin 512 => t.getD k 0 := by
  obtain ⟨hlt, htext⟩ := List.getElem?_eq_some_iff.1 ht
  have huint : toUint (ino : ℤ) = ino := by
    have hlen' : contents.length ≤ 128 := hlen
    unfold toUint
    omega
  have hentry := hholds ino hlt
  rw [show contents.get ⟨ino, hlt⟩ = t from htext, Holds, if_pos hname] at hentry
  rw [fileBlocks, huint, hread ino hlt 0 (by decide), SparseArray.read, if_pos (by omega),
    Option.getD_some]
  exact funext hentry.2

/-- What the files of the image are, on the disk of any state in which they are kept. -/
theorem treediskRead_kept {F : ℕ → SparseArray Block nullBlock}
    (hfiles : ∀ dev : Disk, (∀ b, grassFsStart ≤ b → b < grassFsStart + fsDiskBlocks →
      dev b = Mkfs.imageBlock image b) → ∀ ino < contents.length, ∀ b < 2 ^ 32,
        treediskRead ⟨fsDisk, 0⟩ ino b dev = (F ino).read b)
    (hkept : ∀ b, 2048 ≤ b → b < 8192 → m.disk b = Mkfs.imageBlock image b) (disk' : ℕ → Block)
    (hsame : ∀ b, 2048 ≤ b → b < 8388600 → disk' b = m.disk b) (ino : ℕ)
    (hino : ino < contents.length) (b : ℕ) (hb : b < 2 ^ 32) :
    treediskRead ⟨fsDisk, 0⟩ ino b disk' = (F ino).read b := by
  have hstart : grassFsStart = 4096 := rfl
  have hblocks : fsDiskBlocks = 4096 := rfl
  refine hfiles disk' (fun x hx hx' => ?_) ino hino b hb
  rw [hsame x (by omega) (by omega), hkept x (by omega) (by omega)]

/-- The binary of a command is read from the image. -/
theorem appRead_delivers (hkernels : kernels.length ≤ grassNexec)
    (hlen : contents.length ≤ ninodes) (hfits : ∀ entry ∈ contents, Fits host entry)
    (hmain : main host kernels contents buf = .ok image)
    (hkept : ∀ b, 2048 ≤ b → b < 8192 → m.disk b = Mkfs.imageBlock image b) {ino : ℕ}
    {file : List UInt8} (hentry : contents[ino]? = some (35 :: file))
    (before after : ℕ → List VmAct) (stale : ℕ → Block) :
    (appRead before after stale ino).Delivers m.disk 256 (host file).bytes := by
  obtain ⟨F, hholds, hfiles⟩ := files_of_main hkernels hlen hfits hmain
  have hread := treediskRead_kept hfiles hkept
  obtain ⟨hlt, hget⟩ := List.getElem?_eq_some_iff.1 hentry
  have hfile := hholds ino hlt
  have hname : ¬ ¬ isName (35 :: file) := not_not.2 rfl
  rw [show contents.get ⟨ino, hlt⟩ = 35 :: file from hget, Holds, if_neg hname,
    List.tail_cons] at hfile
  have hfit := hfits _ (List.mem_of_getElem? hentry)
  rw [Fits, if_pos (not_not.1 hname), List.tail_cons] at hfit
  have hfit' : (host file).bytes.length ≤ 131072 := hfit
  refine ⟨?_, by omega, ?_⟩
  · intro disk' hsame n hn
    unfold appRead
    dsimp only
    rw [hread disk' hsame ino hlt _ (Nat.mod_lt _ (by decide)),
      hread m.disk (fun _ _ _ => rfl) ino hlt _ (Nat.mod_lt _ (by decide))]
  · intro n hn k hk
    unfold appRead
    dsimp only
    rw [Nat.mod_eq_of_lt (by omega), hread m.disk (fun _ _ _ => rfl) ino hlt n (by omega),
      SparseArray.read, if_pos (by omega), Option.getD_some]
    exact hfile.2 n k hk

end Image

end Egos
