/-
**The disk image.**

`tools/mkfs.c` writes the image of the disk on the host: 1 MB for paging, eight segments of 128 KB
for the binaries of the kernel, and a file system of 2 MB, which it builds in memory with the same
`treedisk` that the running system uses.  The system finds the parts again by the macros of
`library/file/disk.h`, and opens the file system with `treedisk_init` on the store of
`library/file/disk.c`.

The files of the host are read by calls of `read` that may return any positive number of bytes.  The
buffer of `mkfs` is not initialised and not cleared from one file to the next, so the end of the
last block of a file holds what was there before.

Main definitions:

* `Egos.Mkfs.HostFile` — a file of the host, and how `read` delivers it;
* `Egos.Mkfs.mkfs`, `Egos.Mkfs.main` — the file system, and the image;
* `Egos.Mkfs.fsDisk` — the store of the running system.

Main results:

* `Egos.Mkfs.mkfs_spec` — what the file system stores;
* `Egos.Mkfs.image_read_back` — **the system reads from the image what `mkfs` put into it**.
-/

import Egos.TreediskFiles
import Mathlib.Data.List.GetD

set_option autoImplicit false

namespace Egos.Mkfs

open Function (update update_eq_self update_idem update_of_ne update_self)
open Hoare

/-! ### The layout -/

/-- `PAGING_DEV_SIZE` -/
def pagingDevSize : ℕ := 1024 * 1024

/-- `GRASS_NEXEC` -/
def grassNexec : ℕ := 8

/-- `GRASS_EXEC_SIZE / GRASS_NEXEC`, the `exec_size` of `main`: the macros are not parenthesised,
and this is `1024 * 1024 / 8`. -/
def execSize : ℕ := 1024 * 1024 / grassNexec

/-- `FS_DISK_SIZE` -/
def fsDiskSize : ℕ := 1024 * 1024 * 2

/-- `FS_DISK_SIZE / BLOCK_SIZE` -/
def fsDiskBlocks : ℕ := 1024 * 1024 * 2 / 512

/-- `GRASS_EXEC_SEGMENT` -/
def grassExecSegment : ℕ := 1024 * 1024 / grassNexec / 512

/-- `GRASS_EXEC_START`, that is `PAGING_DEV_SIZE / BLOCK_SIZE`. -/
def grassExecStart : ℕ := 1024 * 1024 / 512

/-- `GRASS_FS_START` -/
def grassFsStart : ℕ := (1024 * 1024 + 1024 * 1024) / 512

/-- `NINODES` -/
def ninodes : ℕ := 128

/-! ### The host -/

/-- A file of the host: `stat` gives its length, and at the position `i` a call of `read` delivers
`chunk i` bytes, unless fewer are asked for or left. -/
structure HostFile where
  bytes : List UInt8
  chunk : ℕ → ℕ
  chunk_pos : ∀ i, 0 < chunk i

/-- A buffer of the program. -/
abbrev Buf : Type := ℕ → UInt8

/-- `nread += read(0, buf + nread, limit - nread)`, as long as `nread < st.st_size`. -/
def readLoop (f : HostFile) (limit : ℕ) : ℕ → ℕ → Buf → Buf
  | 0, _, buf => buf
  | fuel + 1, nread, buf =>
      if nread < f.bytes.length then
        let n := min (f.chunk nread) (min (limit - nread) (f.bytes.length - nread))
        readLoop f limit fuel (nread + n) fun i =>
          if nread ≤ i ∧ i < nread + n then f.bytes.getD i 0 else buf i
      else buf

/-- The buffer after a file has been read to its start. -/
def readFile (f : HostFile) (limit : ℕ) (buf : Buf) : Buf :=
  readLoop f limit f.bytes.length 0 buf

/-- `strncpy(buf, s, n)`: the rest of the `n` bytes is filled with null bytes. -/
def strncpy (buf : Buf) (s : List UInt8) (n : ℕ) : Buf := fun i =>
  if i < n then s.getD i 0 else buf i

/-- The 512 bytes at `buf + b * BLOCK_SIZE`. -/
def bufBlock (buf : Buf) (b : ℕ) : Block := fun k => buf (512 * b + k)

/-! ### The file system -/

/-- The treedisk on the RAM disk. -/
def treedisk : Treedisk Disk := ⟨ramdisk fsDiskBlocks, 0⟩

/-- `for (b = 0; b * BLOCK_SIZE < st.st_size; b++)`: write the blocks of the buffer to an inode. -/
def writeBlocks (ino size : ℕ) (buf : Buf) : ℕ → ℕ → EStateM String Disk Unit
  | 0, _ => return ()
  | fuel + 1, b => do
      if b * 512 < size then
        let _ ← treediskWrite treedisk ino b (bufBlock buf b)
        writeBlocks ino size buf fuel (b + 1)
      else return ()

/-- An entry of `contents` that starts with `#` is the name of a file. -/
def isName (entry : List UInt8) : Prop := entry.head? = some 35

instance (entry : List UInt8) : Decidable (isName entry) := inferInstanceAs (Decidable (_ = _))

/-- The body of the loop of `mkfs`.  The texts of `contents` are given without their terminating
null byte. -/
def mkfsEntry (host : List UInt8 → HostFile) (ino : ℕ) (entry : List UInt8) (buf : Buf) :
    EStateM String Disk Buf :=
  if ¬ isName entry then do
    let buf := strncpy buf entry 512
    let _ ← treediskWrite treedisk ino 0 (bufBlock buf 0)
    return buf
  else do
    let st_size := (host entry.tail).bytes.length
    let buf := readFile (host entry.tail) st_size buf
    writeBlocks ino st_size buf st_size 0
    return buf

/-- The loop of `mkfs`. -/
def mkfsLoop (host : List UInt8 → HostFile) : List (List UInt8) → ℕ → Buf → EStateM String Disk Unit
  | [], _, _ => return ()
  | entry :: contents, ino, buf => do
      let buf ← mkfsEntry host ino entry buf
      mkfsLoop host contents (ino + 1) buf

/-- `mkfs` -/
def mkfs (host : List UInt8 → HostFile) (contents : List (List UInt8)) (buf : Buf) :
    EStateM String Disk Unit := do
  let r ← treediskCreate (ramdisk fsDiskBlocks) 0 ninodes
  if r < 0 then throw "mkfs: assertion failed"
  else mkfsLoop host contents 0 buf

/-! ### The image -/

/-- What is written for a binary of the kernel. -/
def loadKernel (f : HostFile) : Except String (List UInt8) :=
  if 0 < f.bytes.length ∧ f.bytes.length ≤ execSize then
    let exec := readFile f execSize fun _ => 0
    .ok ((List.range f.bytes.length).map exec ++ List.replicate (execSize - f.bytes.length) 0)
  else .error "main: assertion failed"

/-- What is written for all the binaries. -/
def loadKernels : List HostFile → Except String (List UInt8)
  | [] => .ok []
  | f :: fs => do
      let exec ← loadKernel f
      let execs ← loadKernels fs
      return exec ++ execs

/-- The bytes of the array `fs`. -/
def fsBytes (fs : Disk) : List UInt8 :=
  (List.range fsDiskSize).map fun i => fs (i / 512) (Fin.ofNat 512 i)

/-- `main`: the image, for the binaries `kernel_processes` and the table `contents`. -/
def main (host : List UInt8 → HostFile) (kernelProcesses : List HostFile)
    (contents : List (List UInt8)) (buf : Buf) : Except String (List UInt8) :=
  match mkfs host contents buf fun _ => nullBlock with
  | .error e _ => .error e
  | .ok _ fs => do
      let execs ← loadKernels kernelProcesses
      return List.replicate pagingDevSize 0 ++ (execs ++
        (List.replicate ((grassNexec - kernelProcesses.length) * execSize) 0 ++ fsBytes fs))

/-- The block `b` of an image. -/
def imageBlock (image : List UInt8) (b : ℕ) : Block := fun k => image.getD (512 * b + k) 0

/-- The store of `disk.c`, on the blocks of a disk. -/
def fsDisk : InodeStore Disk where
  getsize _ _ := fsDiskBlocks
  setsize _ _ := throw "disk: cannot set the size"
  read _ offset dev := some (dev (grassFsStart + offset))
  write _ offset block := do
    modify fun dev => update dev (grassFsStart + offset) block
    return 0

/-- The store is an array of blocks; `rest` stands for the blocks past its end. -/
def fsDiskArray (rest : Disk) (ino : ℕ) : ArrayStore fsDisk ino fsDiskBlocks fun _ => False where
  Inv _ := True
  view dev off := if off < fsDiskBlocks then dev (grassFsStart + off) else rest off
  getsize_eq _ _ := rfl
  read_eq _ off _ hoff := by rw [if_pos hoff]; rfl
  write_spec d off b hoff := by
    rintro dev ⟨-, rfl⟩
    refine ⟨rfl, trivial, funext fun x => ?_⟩
    change (if x < fsDiskBlocks then update dev (grassFsStart + off) b (grassFsStart + x)
      else rest x) = _
    by_cases hx : x = off
    · subst hx
      rw [if_pos hoff, update_self, update_self]
    · rw [update_of_ne hx, update_of_ne (by omega)]

/-! ### Reading the files of the host -/

theorem readLoop_apply (f : HostFile) {limit : ℕ} (hlimit : f.bytes.length ≤ limit) :
    ∀ fuel nread buf, f.bytes.length - nread ≤ fuel → ∀ i,
      readLoop f limit fuel nread buf i =
        if nread ≤ i ∧ i < f.bytes.length then f.bytes.getD i 0 else buf i := by
  intro fuel
  induction fuel with
  | zero =>
      intro nread buf hfuel i
      rw [readLoop, if_neg (by omega)]
  | succ fuel ih =>
      intro nread buf hfuel i
      rw [readLoop]
      by_cases hlt : nread < f.bytes.length
      · have hpos := f.chunk_pos nread
        rw [if_pos hlt, ih _ _ (by omega)]
        -- what this call of read has delivered, and what comes after
        by_cases h₁ : nread ≤ i ∧ i < nread + min (f.chunk nread)
            (min (limit - nread) (f.bytes.length - nread))
        · rw [if_neg (by omega), if_pos h₁, if_pos (by omega)]
        · rw [if_neg h₁]
          by_cases h₂ : nread ≤ i ∧ i < f.bytes.length
          · rw [if_pos (by omega), if_pos h₂]
          · rw [if_neg (by omega), if_neg h₂]
      · rw [if_neg hlt, if_neg (by omega)]

/-- **Reading a file**: its bytes, and then what was in the buffer. -/
theorem readFile_apply (f : HostFile) {limit : ℕ} (hlimit : f.bytes.length ≤ limit) (buf : Buf)
    (i : ℕ) :
    readFile f limit buf i = if i < f.bytes.length then f.bytes.getD i 0 else buf i := by
  rw [readFile, readLoop_apply f hlimit _ _ _ (by omega)]
  simp only [Nat.zero_le, true_and]

/-! ### What the file system stores -/

/-- A file holds what an entry of the table stands for: the text in one block, or the bytes of the
file in as many blocks as it takes. -/
def Holds (host : List UInt8 → HostFile) (entry : List UInt8)
    (a : SparseArray Block nullBlock) : Prop :=
  if ¬ isName entry then a.size = 1 ∧ ∀ k : Fin 512, a.get 0 k = entry.getD k 0
  else (a.size = ((host entry.tail).bytes.length + 511) / 512 ∧
    ∀ (b : ℕ) (k : Fin 512), 512 * b + k < (host entry.tail).bytes.length →
      a.get b k = (host entry.tail).bytes.getD (512 * b + k) 0)

/-- The first `b` blocks of a file are those of a buffer, and there are no others. -/
def Copied (buf : Buf) (b : ℕ) (a : SparseArray Block nullBlock) : Prop :=
  a.size = b ∧ ∀ b' < b, a.get b' = bufBlock buf b'

theorem Copied.write {buf : Buf} {b : ℕ} {a : SparseArray Block nullBlock} (h : Copied buf b a) :
    Copied buf (b + 1) (a.write b (bufBlock buf b)) := by
  refine ⟨by rw [SparseArray.size_write, h.1]; omega, fun b' hb' => ?_⟩
  rw [SparseArray.get_write]
  by_cases he : b' = b
  · rw [if_pos he, he]
  · rw [if_neg he, h.2 b' (by omega)]

section Spec

/-- The array of blocks that the file system is built on. -/
abbrev ramArray : ArrayStore (ramdisk fsDiskBlocks) 0 fsDiskBlocks fun _ => False :=
  ramdiskArray (by decide) 0

/-- The file system stores `F`. -/
def Stores (F : ℕ → SparseArray Block nullBlock) (fs : Disk) : Prop :=
  ∃ d, Represents fsDiskBlocks 2 d F ∧ ramArray.HoldsOff ∅ d fs

/-- A write to an inode. -/
theorem treediskWrite_stores (F : ℕ → SparseArray Block nullBlock) {ino off : ℕ} (hino : ino < 128)
    (hoff : off < 2 ^ 32 - 1) (blk : Block) :
    Triple (Stores F) (treediskWrite treedisk ino off blk)
      (fun _ => Stores (update F ino ((F ino).write off blk)))
      (fun e _ => e = storeFull) := by
  refine Triple.of_exists fun d => Triple.of_pre fun hr => ?_
  refine (treediskWrite_spec (A := ramArray) hr (by omega) hoff blk).conseq (fun _ hs => hs) ?_ ?_
  · rintro r fs ⟨d', ⟨-, hr'⟩, hs⟩
    exact ⟨d', hr', hs⟩
  · rintro e fs hstop
    rcases hstop.fails with he | he
    · exact he
    · exact he.elim

/-- **The blocks of a file.** -/
theorem writeBlocks_spec {ino size : ℕ} (hino : ino < 128) (hsize : size ≤ 2 ^ 32 - 1) (buf : Buf) :
    ∀ fuel b F, size ≤ fuel + b → b ≤ (size + 511) / 512 → Copied buf b (F ino) →
      Triple (Stores F) (writeBlocks ino size buf fuel b)
        (fun _ fs => ∃ a, Copied buf ((size + 511) / 512) a ∧ Stores (update F ino a) fs)
        (fun e _ => e = storeFull) := by
  intro fuel
  -- the last block has been written when no round is left, or none is needed
  have hdone : ∀ b F, b = (size + 511) / 512 → Copied buf b (F ino) →
      Triple (Stores F) (return ()) (fun (_ : Unit) fs => ∃ a, Copied buf ((size + 511) / 512) a ∧
        Stores (update F ino a) fs) (fun e _ => e = storeFull) := by
    intro b F hb hcopied
    refine Triple.pure fun fs hs => ⟨F ino, hb ▸ hcopied, ?_⟩
    rwa [update_eq_self]
  induction fuel with
  | zero =>
      intro b F hfuel hb hcopied
      rw [writeBlocks]
      exact hdone b F (by omega) hcopied
  | succ fuel ih =>
      intro b F hfuel hb hcopied
      rw [writeBlocks]
      by_cases hlt : b * 512 < size
      · rw [if_pos hlt]
        refine Triple.bind (treediskWrite_stores F hino (by omega) _) fun _ => ?_
        have hcopied' : Copied buf (b + 1)
            (update F ino ((F ino).write b (bufBlock buf b)) ino) := by
          rw [update_self]
          exact hcopied.write
        refine (ih (b + 1) _ (by omega) (by omega) hcopied').conseq (fun _ hs => hs) ?_
          fun _ _ he => he
        rintro _ fs ⟨a, ha, hs⟩
        rw [update_idem] at hs
        exact ⟨a, ha, hs⟩
      · rw [if_neg hlt]
        exact hdone b F (by omega) hcopied

/-- What the table asks for: a text is shorter than a block, and a file is not longer than the
buffer. -/
def Fits (host : List UInt8 → HostFile) (entry : List UInt8) : Prop :=
  if isName entry then (host entry.tail).bytes.length ≤ execSize else entry.length < 512

instance (host : List UInt8 → HostFile) (entry : List UInt8) : Decidable (Fits host entry) :=
  inferInstanceAs (Decidable (ite (isName entry) _ _))

/-- **One entry of the table.** -/
theorem mkfsEntry_spec (host : List UInt8 → HostFile) {ino : ℕ} (hino : ino < 128)
    (entry : List UInt8) (hfits : Fits host entry) (buf : Buf)
    (F : ℕ → SparseArray Block nullBlock) (hempty : F ino = SparseArray.empty) :
    Triple (Stores F) (mkfsEntry host ino entry buf)
      (fun _ fs => ∃ a, Holds host entry a ∧ Stores (update F ino a) fs)
      (fun e _ => e = storeFull) := by
  rw [mkfsEntry]
  by_cases hname : isName entry
  · rw [Fits, if_pos hname] at hfits
    have hlen : (host entry.tail).bytes.length ≤ 2 ^ 32 - 1 := le_trans hfits (by decide)
    have hcopied : ∀ buf' : Buf, Copied buf' 0 (F ino) := fun buf' => by
      rw [hempty]
      exact ⟨rfl, fun b' hb' => absurd hb' (Nat.not_lt_zero b')⟩
    rw [if_neg (not_not.2 hname)]
    refine Triple.bind (writeBlocks_spec hino hlen _ _ 0 F (by omega) (by omega) (hcopied _))
      fun _ => Triple.pure ?_
    rintro fs ⟨a, ⟨hsize, hget⟩, hs⟩
    refine ⟨a, ?_, hs⟩
    rw [Holds, if_neg (not_not.2 hname)]
    refine ⟨hsize, fun b k hk => ?_⟩
    rw [hget b (by omega), bufBlock, readFile_apply _ le_rfl, if_pos hk]
  · rw [if_pos hname]
    refine Triple.bind (treediskWrite_stores F hino (by decide) _) fun _ => Triple.pure ?_
    intro fs hs
    refine ⟨_, ?_, hs⟩
    rw [Holds, if_pos hname, hempty]
    refine ⟨rfl, fun k => ?_⟩
    rw [SparseArray.get_write, if_pos rfl, bufBlock, strncpy, Nat.mul_zero, Nat.zero_add,
      if_pos k.isLt]

/-- **The entries of the table**, in the inodes from `ino` on. -/
theorem mkfsLoop_spec (host : List UInt8 → HostFile) :
    ∀ contents ino buf F, ino + contents.length ≤ 128 → (∀ entry ∈ contents, Fits host entry) →
      (∀ i, ino ≤ i → F i = SparseArray.empty) →
      Triple (Stores F) (mkfsLoop host contents ino buf)
        (fun _ fs => ∃ F', (∀ i, i < ino → F' i = F i) ∧
          (∀ i (h : i < contents.length), Holds host (contents.get ⟨i, h⟩) (F' (ino + i))) ∧
          (∀ i, ino + contents.length ≤ i → F' i = SparseArray.empty) ∧ Stores F' fs)
        (fun e _ => e = storeFull) := by
  intro contents
  induction contents with
  | nil =>
      intro ino buf F _ _ hempty
      rw [mkfsLoop]
      exact Triple.pure fun fs hs =>
        ⟨F, fun _ _ => rfl, fun i h => absurd h (Nat.not_lt_zero i), hempty, hs⟩
  | cons entry contents ih =>
      intro ino buf F hlen hfits hempty
      rw [List.length_cons] at hlen
      rw [mkfsLoop]
      refine Triple.bind (mkfsEntry_spec host (by omega) entry (hfits entry List.mem_cons_self) buf
        F (hempty ino le_rfl)) fun buf' => Triple.of_exists fun a => Triple.of_pre fun ha => ?_
      have hempty' : ∀ i, ino + 1 ≤ i → update F ino a i = SparseArray.empty := by
        intro i hi
        rw [update_of_ne (by omega)]
        exact hempty i (by omega)
      refine (ih (ino + 1) buf' (update F ino a) (by omega)
        (fun e he => hfits e (List.mem_cons_of_mem _ he)) hempty').conseq (fun _ hs => hs) ?_
        fun _ _ he => he
      rintro _ fs ⟨F', hbelow, hholds, habove, hs⟩
      refine ⟨F', fun i hi => ?_, fun i h => ?_, fun i hi => ?_, hs⟩
      · rw [hbelow i (by omega), update_of_ne (by omega)]
      · cases i with
        | zero =>
            rw [Nat.add_zero, hbelow ino (by omega), update_self]
            exact ha
        | succ i =>
            have := hholds i (by rw [List.length_cons] at h; omega)
            rwa [show ino + 1 + i = ino + (i + 1) by omega] at this
      · exact habove i (by rw [List.length_cons] at hi; omega)

/-- **What `mkfs` stores**, unless the blocks do not fit. -/
theorem mkfs_spec (host : List UInt8 → HostFile) (contents : List (List UInt8))
    (hlen : contents.length ≤ 128) (hfits : ∀ entry ∈ contents, Fits host entry) (buf : Buf) :
    Triple (fun fs => fs = fun _ => nullBlock) (mkfs host contents buf)
      (fun _ fs => ∃ F, (∀ i (h : i < contents.length), Holds host (contents.get ⟨i, h⟩) (F i)) ∧
        (∀ i, contents.length ≤ i → F i = SparseArray.empty) ∧ Stores F fs)
      (fun e _ => e = storeFull) := by
  rw [mkfs]
  have hcreate := treediskCreate_spec (A := ramArray) (d := fun _ => nullBlock) rfl ninodes
  refine Triple.bind (Q := fun r fs => r = 0 ∧ Stores (fun _ => SparseArray.empty) fs)
    (hcreate.conseq ?_ ?_ ?_) fun r => Triple.of_pre ?_
  · rintro fs rfl
    exact ⟨trivial, fun _ _ => rfl⟩
  · rintro r fs (⟨-, hfew, -⟩ | ⟨d, ⟨hr, hrep⟩, hs⟩)
    · exact absurd hfew (by decide)
    · exact ⟨hr, d, hrep, hs⟩
  · rintro e fs (he | he)
    · exact he
    · exact he.elim
  · rintro rfl
    rw [if_neg (by decide)]
    refine (mkfsLoop_spec host contents 0 buf _ (by omega) hfits fun _ _ => rfl).conseq
      (fun _ hs => hs) ?_ fun _ _ he => he
    rintro _ fs ⟨F, -, hholds, habove, hs⟩
    refine ⟨F, fun i h => ?_, fun i hi => habove i (by omega), hs⟩
    have := hholds i h
    rwa [Nat.zero_add] at this

end Spec

/-! ### The parts of the image -/

/-- Each segment of the image holds a binary, followed by null bytes. -/
theorem loadKernel_spec {f : HostFile} (hpos : 0 < f.bytes.length)
    (hle : f.bytes.length ≤ execSize) :
    ∃ exec, loadKernel f = .ok exec ∧ exec.length = execSize ∧
      ∀ r, exec.getD r 0 = f.bytes.getD r 0 := by
  rw [loadKernel, if_pos ⟨hpos, hle⟩]
  refine ⟨_, rfl, ?_, fun r => ?_⟩
  · rw [List.length_append, List.length_map, List.length_range, List.length_replicate]
    omega
  · rcases Nat.lt_or_ge r f.bytes.length with hr | hr
    · rw [List.getD_append _ _ _ _ (by rwa [List.length_map, List.length_range]),
        List.getD_eq_getElem _ _ (by rwa [List.length_map, List.length_range]), List.getElem_map,
        List.getElem_range, readFile_apply f hle, if_pos hr]
    · rw [List.getD_append_right _ _ _ _ (by rwa [List.length_map, List.length_range]),
        List.getD_eq_default f.bytes 0 hr, List.getD_eq_getElem?_getD,
        List.getElem?_getD_replicate_default_eq]

theorem loadKernels_spec :
    ∀ kernels : List HostFile, (∀ f ∈ kernels, 0 < f.bytes.length ∧ f.bytes.length ≤ execSize) →
      ∃ execs, loadKernels kernels = .ok execs ∧ execs.length = execSize * kernels.length ∧
        ∀ i (h : i < kernels.length) r, r < execSize →
          execs.getD (execSize * i + r) 0 = (kernels.get ⟨i, h⟩).bytes.getD r 0 := by
  intro kernels
  induction kernels with
  | nil => exact fun _ => ⟨[], rfl, rfl, fun i h => absurd h (Nat.not_lt_zero i)⟩
  | cons f kernels ih =>
      intro hsizes
      obtain ⟨hpos, hle⟩ := hsizes f List.mem_cons_self
      obtain ⟨exec, hexec, hlen, hget⟩ := loadKernel_spec hpos hle
      obtain ⟨execs, hexecs, hlens, hgets⟩ := ih fun g hg => hsizes g (List.mem_cons_of_mem _ hg)
      refine ⟨exec ++ execs, ?_, ?_, fun i h r hr => ?_⟩
      · rw [loadKernels, hexec, hexecs]
        rfl
      · rw [List.length_append, hlen, hlens, List.length_cons, Nat.mul_succ, Nat.add_comm]
      · cases i with
        | zero =>
            rw [Nat.mul_zero, Nat.zero_add, List.getD_append _ _ _ _ (by omega)]
            exact hget r
        | succ i =>
            rw [Nat.mul_succ, List.getD_append_right _ _ _ _ (by omega), hlen,
              show execSize * i + execSize + r - execSize = execSize * i + r by omega]
            exact hgets i _ r hr

theorem fsBytes_getD (fs : Disk) {off : ℕ} (hoff : off < fsDiskBlocks) (k : Fin 512) :
    (fsBytes fs).getD (512 * off + k) 0 = fs off k := by
  have hoff' : off < 4096 := hoff
  have hlt : 512 * off + k.val < fsDiskSize := by
    change _ < 2097152
    omega
  rw [fsBytes, List.getD_eq_getElem _ _ (by rwa [List.length_map, List.length_range]),
    List.getElem_map, List.getElem_range, show (512 * off + k.val) / 512 = off by omega]
  exact congrArg (fs off) (Fin.ext (by simp [Fin.ofNat]))

/-- **The parts of the image** are found where the macros of the system say. -/
theorem main_parts (host : List UInt8 → HostFile) {kernels : List HostFile}
    (hkernels : kernels.length ≤ grassNexec)
    (hsizes : ∀ f ∈ kernels, 0 < f.bytes.length ∧ f.bytes.length ≤ execSize)
    {contents : List (List UInt8)} {buf : Buf} {u : Unit} {fs : Disk}
    (hfs : mkfs host contents buf (fun _ => nullBlock) = .ok u fs) :
    ∃ image, main host kernels contents buf = .ok image ∧ image.length = 4 * 1024 * 1024 ∧
      (∀ i (h : i < kernels.length) k (j : Fin 512), k < grassExecSegment →
        imageBlock image (grassExecStart + grassExecSegment * i + k) j =
          (kernels.get ⟨i, h⟩).bytes.getD (512 * k + j) 0) ∧
      ∀ off, off < fsDiskBlocks → imageBlock image (grassFsStart + off) = fs off := by
  obtain ⟨execs, hexecs, hlen, hget⟩ := loadKernels_spec kernels hsizes
  have hk : kernels.length ≤ 8 := hkernels
  have hlen' : execs.length = 131072 * kernels.length := hlen
  have hpad : ((grassNexec - kernels.length) * execSize) = 131072 * (8 - kernels.length) :=
    Nat.mul_comm _ _
  rw [main, hfs]
  refine ⟨_, by rw [hexecs]; rfl, ?_, ?_, ?_⟩
  · rw [List.length_append, List.length_append, List.length_append, List.length_replicate,
      List.length_replicate, hlen', hpad, fsBytes, List.length_map, List.length_range]
    change 1048576 + (131072 * kernels.length + (131072 * (8 - kernels.length) + 2097152)) = _
    omega
  · intro i h k j hseg
    have hseg' : k < 256 := hseg
    rw [imageBlock, List.getD_append_right _ _ _ _ ?_, List.length_replicate,
      List.getD_append _ _ _ _ ?_]
    · have hidx : 512 * (grassExecStart + grassExecSegment * i + k) + j.val - pagingDevSize =
          execSize * i + (512 * k + j) := by
        change 512 * (2048 + 256 * i + k) + j.val - 1048576 = 131072 * i + (512 * k + j)
        omega
      rw [hidx]
      exact hget i h _ (by change _ < 131072; omega)
    · rw [hlen']
      change 512 * (2048 + 256 * i + k) + j.val - 1048576 < _
      omega
    · rw [List.length_replicate]
      change 1048576 ≤ 512 * (2048 + 256 * i + k) + j.val
      omega
  · intro off hoff
    funext k
    rw [imageBlock, List.getD_append_right _ _ _ _ ?_, List.getD_append_right _ _ _ _ ?_,
      List.getD_append_right _ _ _ _ ?_, List.length_replicate, List.length_replicate, hlen', hpad]
    · have hidx : 512 * (grassFsStart + off) + k.val - pagingDevSize - 131072 * kernels.length -
          131072 * (8 - kernels.length) = 512 * off + k := by
        change 512 * (4096 + off) + k.val - 1048576 - _ - _ = _
        omega
      rw [hidx, fsBytes_getD fs hoff]
    · rw [List.length_replicate, List.length_replicate, hlen', hpad]
      change _ ≤ 512 * (4096 + off) + k.val - 1048576 - _
      omega
    · rw [List.length_replicate, hlen']
      change _ ≤ 512 * (4096 + off) + k.val - 1048576
      omega
    · rw [List.length_replicate]
      change 1048576 ≤ 512 * (4096 + off) + k.val
      omega

/-- **The image is read back.**  For binaries that fit their segments, and a table whose entries fit
the buffers and whose blocks fit the file system, the image of 4 MB holds each binary, followed by
null bytes, where the system loads it from.  If a disk starts with the image, the file system opened
on it reads as the table: a text is one block, padded with null bytes; a file has its bytes up to
its size, and no blocks past its end. -/
theorem image_read_back (host : List UInt8 → HostFile) (kernels : List HostFile)
    (hkernels : kernels.length ≤ grassNexec)
    (hsizes : ∀ f ∈ kernels, 0 < f.bytes.length ∧ f.bytes.length ≤ execSize)
    (contents : List (List UInt8)) (hlen : contents.length ≤ ninodes)
    (hfits : ∀ entry ∈ contents, Fits host entry) (buf : Buf)
    (hroom : ∀ fs, mkfs host contents buf (fun _ => nullBlock) ≠ .error storeFull fs) :
    ∃ image, main host kernels contents buf = .ok image ∧ image.length = 4 * 1024 * 1024 ∧
      (∀ i (h : i < kernels.length) k (j : Fin 512), k < grassExecSegment →
        imageBlock image (grassExecStart + grassExecSegment * i + k) j =
          (kernels.get ⟨i, h⟩).bytes.getD (512 * k + j) 0) ∧
      ∀ dev : Disk, (∀ b, b < 4 * 1024 * 1024 / 512 → dev b = imageBlock image b) →
        ∀ ino (h : ino < contents.length),
          (¬ isName (contents.get ⟨ino, h⟩) →
            treediskRead ⟨fsDisk, 0⟩ ino 0 dev =
              some (fun k : Fin 512 => (contents.get ⟨ino, h⟩).getD k 0) ∧
            ∀ b, 0 < b → b < 2 ^ 32 → treediskRead ⟨fsDisk, 0⟩ ino b dev = none) ∧
          (isName (contents.get ⟨ino, h⟩) → ∀ b, b < 2 ^ 32 →
            let file := (host (contents.get ⟨ino, h⟩).tail).bytes
            (512 * b < file.length → ∃ block, treediskRead ⟨fsDisk, 0⟩ ino b dev = some block ∧
              ∀ k : Fin 512, 512 * b + k < file.length → block k = file.getD (512 * b + k) 0) ∧
            (file.length ≤ 512 * b → treediskRead ⟨fsDisk, 0⟩ ino b dev = none)) := by
  obtain ⟨u, fs, hfs, F, hholds, -, d, hr, hs⟩ :=
    (mkfs_spec host contents hlen hfits buf).total rfl fun e fs he hfull =>
      hroom fs (hfull ▸ he)
  obtain ⟨image, himage, hlength, hexecs, hblocks⟩ := main_parts host hkernels hsizes hfs
  refine ⟨image, himage, hlength, hexecs, fun dev hdev ino h => ?_⟩
  have hdisk : (fsDiskArray d 0).HoldsOff ∅ d dev := by
    refine ⟨trivial, fun x _ => ?_⟩
    by_cases hx : x < fsDiskBlocks
    · have hx' : x < 4096 := hx
      change (if x < fsDiskBlocks then _ else _) = _
      rw [if_pos hx, hdev _ (by change 4096 + x < _; omega), hblocks x hx]
      exact hs.2 x (Set.notMem_empty x)
    · exact if_neg hx
  have hino : ino < 64 * 2 := lt_of_lt_of_le h hlen
  have hread : ∀ b, b < 2 ^ 32 → treediskRead ⟨fsDisk, 0⟩ ino b dev = (F ino).read b := by
    intro b hb
    rw [treediskRead_spec hr hdisk ino b hb, if_pos hino]
  have hentry := hholds ino h
  rw [Holds] at hentry
  constructor
  · intro hname
    rw [if_pos hname] at hentry
    refine ⟨?_, fun b hpos hb => ?_⟩
    · rw [hread 0 (by decide), SparseArray.read, if_pos (by omega)]
      exact congrArg some (funext hentry.2)
    · rw [hread b hb, SparseArray.read, if_neg (by omega)]
  · intro hname b hb
    rw [if_neg (not_not.2 hname)] at hentry
    refine ⟨fun hlt => ⟨(F ino).get b, ?_, hentry.2 b⟩, fun hle => ?_⟩
    · rw [hread b hb, SparseArray.read, if_pos (by omega)]
    · rw [hread b hb, SparseArray.read, if_neg (by omega)]

/-- A file of one byte, which is read in one call. -/
def oneByte : HostFile := ⟨[7], fun _ => 1, fun _ => by decide⟩

set_option maxRecDepth 100000 in
/-- A table with the text `./` and the name of a file, and five binaries. -/
theorem image_read_back_small : ∃ image, main (fun _ => oneByte) (List.replicate 5 oneByte)
      [[46, 47], [35, 102]] (fun _ => 0) = .ok image ∧
    imageBlock image (grassExecStart + grassExecSegment * 4 + 0) 0 = 7 ∧
    treediskRead ⟨fsDisk, 0⟩ 0 0 (imageBlock image) =
      some (fun k : Fin 512 => [46, 47].getD k 0) ∧
    ∃ block, treediskRead ⟨fsDisk, 0⟩ 1 0 (imageBlock image) = some block ∧ block 0 = 7 := by
  have hok : (match mkfs (fun _ => oneByte) [[46, 47], [35, 102]] (fun _ => 0)
      fun _ => nullBlock with
      | .ok _ _ => true
      | .error _ _ => false) = true := by
    decide +kernel
  have hroom : ∀ fs, mkfs (fun _ => oneByte) [[46, 47], [35, 102]] (fun _ => 0)
      (fun _ => nullBlock) ≠ .error storeFull fs := by
    intro fs he
    rw [he] at hok
    exact Bool.false_ne_true hok
  obtain ⟨image, himage, -, hexecs, hfiles⟩ := image_read_back (fun _ => oneByte)
    (List.replicate 5 oneByte) (by decide) (by decide) [[46, 47], [35, 102]] (by decide)
    (by decide) (fun _ => 0) hroom
  have hread := hfiles (imageBlock image) fun _ _ => rfl
  obtain ⟨block, hblock, hbyte⟩ := ((hread 1 (by decide)).2 (by decide) 0 (by decide)).1 (by decide)
  exact ⟨image, himage, hexecs 4 (by decide) 0 0 (by decide),
    ((hread 0 (by decide)).1 (by decide)).1, block, hblock, hbyte 0 (by decide)⟩

end Egos.Mkfs
