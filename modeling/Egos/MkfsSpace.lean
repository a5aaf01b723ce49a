/-
**How much an image holds** (`tools/mkfs.c`).

`mkfs` writes one block for a text of its table, and the blocks of a file one after the other.  The
file system takes more blocks than that, as the tree of a file has indirect blocks, and it has
fewer than the 4096 blocks of its part of the disk, as the superblock and the inodes are there, too.
If the blocks run out, `mkfs` ends in the panic of `treedisk_alloc_block`, and there is no image.

Main definitions:

* `Egos.Mkfs.tableWrites` — the writes of `mkfs`, in their order;
* `Egos.treeBlocks` — the number of blocks of the tree of a file;
* `Egos.Mkfs.entryBlocks` — the number of blocks for an entry of the table.

Main results:

* `Egos.Mkfs.mkfsLoop_eq` — the loop of `mkfs` is a run of writes;
* `Egos.blocksNeeded_range` — the blocks of a file that is written from its start to its end;
* `Egos.Mkfs.image_built_iff` — **there is an image if and only if the blocks fit**.
-/

import Egos.Mkfs
import Egos.TreediskSpace

set_option autoImplicit false

namespace Egos

open Hoare

/-! ### The blocks of a file -/

/-- The number of blocks of the tree of a file of `k` blocks: on every level, one for 128 blocks of
the level below. -/
def treeBlocks (k : ℕ) : ℕ :=
  ∑ l ∈ Finset.range (nlevels k + 1), (k + (128 ^ l - 1)) / 128 ^ l

theorem sup_range (k : ℕ) : (Finset.range k).sup (· + 1) = k := by
  refine le_antisymm (Finset.sup_le fun off hoff => Finset.mem_range.1 hoff) ?_
  cases k with
  | zero => exact Nat.zero_le _
  | succ k => exact Finset.le_sup (f := (· + 1)) (Finset.mem_range.2 (Nat.lt_succ_self k))

/-- The places of a level, when the blocks of a file are written from the start to the end. -/
theorem levelNodes_range {k : ℕ} (hk : 0 < k) (l : ℕ) :
    levelNodes (Finset.range k) l = Finset.range ((k + (128 ^ l - 1)) / 128 ^ l) := by
  have hpow : 0 < 128 ^ l := Nat.pow_pos (by decide)
  ext v
  have hlt : v < (k + (128 ^ l - 1)) / 128 ^ l ↔ v * 128 ^ l < k := by
    rw [← Nat.succ_le_iff, Nat.le_div_iff_mul_le hpow, Nat.succ_mul]
    omega
  rw [mem_levelNodes, Finset.mem_range, hlt]
  constructor
  · rintro (⟨-, rfl⟩ | ⟨off, hoff, rfl⟩)
    · rwa [Nat.zero_mul]
    · exact lt_of_le_of_lt (Nat.div_mul_le_self off (128 ^ l)) (Finset.mem_range.1 hoff)
  · intro hv
    exact Or.inr ⟨v * 128 ^ l, Finset.mem_range.2 hv, Nat.mul_div_cancel v hpow⟩

/-- **The blocks of a file that is written from its start to its end.** -/
theorem blocksNeeded_range (k : ℕ) : blocksNeeded (Finset.range k) = treeBlocks k := by
  rw [blocksNeeded, treeBlocks, heightNeeded, sup_range]
  rcases Nat.eq_zero_or_pos k with rfl | hk
  · rfl
  · refine Finset.sum_congr rfl fun l _ => ?_
    rw [levelNodes_range hk, Finset.card_range]

namespace Mkfs

/-! ### The writes -/

/-- Writes, without their return values. -/
def runWrites (ops : List WriteOp) : EStateM String Disk Unit := do
  let _ ← treediskWrites treedisk ops
  return ()

theorem runWrites_cons (op : WriteOp) (ops : List WriteOp) :
    runWrites (op :: ops) =
      treediskWrite treedisk op.ino op.offset op.block >>= fun _ => runWrites ops := by
  simp only [runWrites, treediskWrites, bind_assoc, pure_bind]

theorem runWrites_append (ops ops' : List WriteOp) :
    runWrites (ops ++ ops') = runWrites ops >>= fun _ => runWrites ops' := by
  induction ops with
  | nil => rfl
  | cons op ops ih => rw [List.cons_append, runWrites_cons, runWrites_cons, ih, bind_assoc]

/-- The number of blocks that are written for an entry. -/
def entrySize (host : List UInt8 → HostFile) (entry : List UInt8) : ℕ :=
  if isName entry then ((host entry.tail).bytes.length + 511) / 512 else 1

/-- The buffer after an entry. -/
def entryBuf (host : List UInt8 → HostFile) (entry : List UInt8) (buf : Buf) : Buf :=
  if isName entry then readFile (host entry.tail) (host entry.tail).bytes.length buf
  else strncpy buf entry 512

/-- The writes of `n` blocks of the buffer, from the block `b` on. -/
def bufWrites (ino : ℕ) (buf : Buf) (b n : ℕ) : List WriteOp :=
  (List.range' b n).map fun b => ⟨ino, b, bufBlock buf b⟩

/-- The writes for the entries of a table, in the inodes from `ino` on. -/
def tableWrites (host : List UInt8 → HostFile) : List (List UInt8) → ℕ → Buf → List WriteOp
  | [], _, _ => []
  | entry :: contents, ino, buf =>
      bufWrites ino (entryBuf host entry buf) 0 (entrySize host entry) ++
        tableWrites host contents (ino + 1) (entryBuf host entry buf)

/-- The loop over the blocks of a file is a run of writes. -/
theorem writeBlocks_eq (ino size : ℕ) (buf : Buf) :
    ∀ fuel b, size ≤ fuel + b →
      writeBlocks ino size buf fuel b =
        runWrites (bufWrites ino buf b ((size + 511) / 512 - b)) := by
  intro fuel
  induction fuel with
  | zero =>
      intro b hb
      rw [show (size + 511) / 512 - b = 0 by omega]
      rfl
  | succ fuel ih =>
      intro b hb
      rw [writeBlocks]
      split
      · rename_i hlt
        obtain ⟨n, hn⟩ : ∃ n, (size + 511) / 512 - b = n + 1 :=
          ⟨(size + 511) / 512 - b - 1, by omega⟩
        have hwrites : bufWrites ino buf b (n + 1) =
            ⟨ino, b, bufBlock buf b⟩ :: bufWrites ino buf (b + 1) n := rfl
        rw [ih (b + 1) (by omega), hn, hwrites, runWrites_cons,
          show (size + 511) / 512 - (b + 1) = n by omega]
      · rw [show (size + 511) / 512 - b = 0 by omega]
        rfl

/-- **The loop of `mkfs` is a run of writes.** -/
theorem mkfsLoop_eq (host : List UInt8 → HostFile) (contents : List (List UInt8)) :
    ∀ ino buf, mkfsLoop host contents ino buf = runWrites (tableWrites host contents ino buf) := by
  induction contents with
  | nil => exact fun ino buf => rfl
  | cons entry contents ih =>
      intro ino buf
      rw [mkfsLoop, tableWrites, runWrites_append, mkfsEntry]
      unfold entrySize entryBuf
      by_cases hname : isName entry
      · rw [if_neg (not_not.2 hname), if_pos hname, if_pos hname]
        dsimp only
        rw [writeBlocks_eq ino (host entry.tail).bytes.length _ _ 0 (Nat.le_refl _), Nat.sub_zero]
        simp only [bind_assoc, pure_bind, ih]
      · have hwrites : ∀ buf : Buf, bufWrites ino buf 0 1 = [⟨ino, 0, bufBlock buf 0⟩] :=
          fun _ => rfl
        have hnil : runWrites [] = pure () := rfl
        rw [if_pos hname, if_neg hname, if_neg hname, hwrites, runWrites_cons, hnil]
        simp only [bind_assoc, pure_bind, ih]

/-! ### The offsets -/

theorem exists_mem_bufWrites {ino : ℕ} {buf : Buf} {n j off : ℕ} :
    (∃ op ∈ bufWrites ino buf 0 n, op.ino = j ∧ op.offset = off) ↔ ino = j ∧ off < n := by
  rw [bufWrites]
  constructor
  · rintro ⟨op, hop, rfl, rfl⟩
    obtain ⟨b, hb, rfl⟩ := List.mem_map.1 hop
    rw [List.mem_range'_1] at hb
    exact ⟨rfl, by simpa using hb.2⟩
  · rintro ⟨rfl, hoff⟩
    exact ⟨_, List.mem_map_of_mem (List.mem_range'_1.2 ⟨Nat.zero_le off, by omega⟩), rfl, rfl⟩

theorem exists_mem_tableWrites (host : List UInt8 → HostFile) (contents : List (List UInt8)) :
    ∀ ino buf j off, (∃ op ∈ tableWrites host contents ino buf, op.ino = j ∧ op.offset = off) ↔
      ∃ i, ino + i = j ∧ off < (contents.map (entrySize host)).getD i 0 := by
  induction contents with
  | nil =>
      intro ino buf j off
      simp [tableWrites]
  | cons entry contents ih =>
      intro ino buf j off
      simp only [tableWrites, List.mem_append, or_and_right, exists_or]
      rw [exists_mem_bufWrites, ih, List.map_cons]
      constructor
      · rintro (⟨rfl, hoff⟩ | ⟨i, rfl, hoff⟩)
        · exact ⟨0, rfl, hoff⟩
        · exact ⟨i + 1, by omega, hoff⟩
      · rintro ⟨i, rfl, hoff⟩
        cases i with
        | zero => exact Or.inl ⟨rfl, hoff⟩
        | succ i => exact Or.inr ⟨i, by omega, hoff⟩

/-- The offsets that are written to an inode. -/
theorem offsetsOf_tableWrites (host : List UInt8 → HostFile) (contents : List (List UInt8))
    (buf : Buf) (ino : ℕ) : offsetsOf ino (tableWrites host contents 0 buf) =
      Finset.range ((contents.map (entrySize host)).getD ino 0) := by
  ext off
  rw [mem_offsetsOf, exists_mem_tableWrites, Finset.mem_range]
  constructor
  · rintro ⟨i, rfl, hoff⟩
    rwa [Nat.zero_add]
  · exact fun hoff => ⟨ino, Nat.zero_add ino, hoff⟩

/-- The number of blocks for an entry of the table. -/
def entryBlocks (host : List UInt8 → HostFile) (entry : List UInt8) : ℕ :=
  treeBlocks (entrySize host entry)

theorem sum_range_getD (l : List ℕ) (f : ℕ → ℕ) (h0 : f 0 = 0) :
    ∀ n, l.length ≤ n → ∑ i ∈ Finset.range n, f (l.getD i 0) = (l.map f).sum := by
  induction l with
  | nil =>
      intro n _
      simp [h0]
  | cons a l ih =>
      intro n hn
      obtain ⟨n, rfl⟩ : ∃ k, n = k + 1 := ⟨n - 1, by rw [List.length_cons] at hn; omega⟩
      rw [Finset.sum_range_succ', List.map_cons, List.sum_cons, Nat.add_comm,
        ← ih n (by rw [List.length_cons] at hn; omega)]
      rfl

/-- The blocks that all the writes need. -/
theorem sum_blocksNeeded (host : List UInt8 → HostFile) {contents : List (List UInt8)}
    (hlen : contents.length ≤ 128) (buf : Buf) :
    ∑ ino ∈ Finset.range 128, blocksNeeded (offsetsOf ino (tableWrites host contents 0 buf)) =
      (contents.map (entryBlocks host)).sum := by
  have hmap : contents.map (entryBlocks host) = (contents.map (entrySize host)).map treeBlocks := by
    rw [List.map_map]
    rfl
  rw [hmap, ← sum_range_getD _ treeBlocks rfl 128 (by rwa [List.length_map])]
  refine Finset.sum_congr rfl fun ino _ => ?_
  rw [offsetsOf_tableWrites, blocksNeeded_range]

/-! ### The image -/

/-- `treedisk_create` goes through on the RAM disk. -/
theorem create_ok :
    ∃ fs, treediskCreate (ramdisk fsDiskBlocks) 0 ninodes (fun _ => nullBlock) = .ok 0 fs := by
  have hrun : returnsZero (treediskCreate (ramdisk fsDiskBlocks) 0 ninodes fun _ => nullBlock)
      (fun _ => true) = true := by
    decide +kernel
  obtain ⟨fs, hc, -⟩ := of_returnsZero hrun
  exact ⟨fs, hc⟩

/-- After `treedisk_create`, the writes are left. -/
theorem mkfs_eq (host : List UInt8 → HostFile) (contents : List (List UInt8)) (buf : Buf)
    {fs₀ fs : Disk} (hc : treediskCreate (ramdisk fsDiskBlocks) 0 ninodes fs₀ = .ok 0 fs) :
    mkfs host contents buf fs₀ = runWrites (tableWrites host contents 0 buf) fs := by
  rw [← mkfsLoop_eq, mkfs, bind_apply, hc]
  rfl

/-- An entry that fits takes at most 256 blocks. -/
theorem entrySize_le {host : List UInt8 → HostFile} {entry : List UInt8} (h : Fits host entry) :
    entrySize host entry ≤ 256 := by
  rw [Fits] at h
  unfold entrySize
  split
  · rename_i hname
    rw [if_pos hname] at h
    have hle : (host entry.tail).bytes.length ≤ 131072 := h
    omega
  · decide

theorem offset_lt_of_mem_tableWrites {host : List UInt8 → HostFile} {contents : List (List UInt8)}
    (hfits : ∀ entry ∈ contents, Fits host entry) {buf : Buf} {op : WriteOp}
    (hop : op ∈ tableWrites host contents 0 buf) : op.offset < 256 := by
  obtain ⟨i, -, hlt⟩ :=
    (exists_mem_tableWrites host contents 0 buf op.ino op.offset).1 ⟨op, hop, rfl, rfl⟩
  refine lt_of_lt_of_le hlt ?_
  rcases Nat.lt_or_ge i (contents.map (entrySize host)).length with hi | hi
  · rw [List.getD_eq_getElem _ _ hi, List.getElem_map]
    exact entrySize_le (hfits _ (List.getElem_mem _))
  · rw [List.getD_eq_default _ _ hi]
    decide

/-- **`mkfs` goes through if and only if the blocks fit.** -/
theorem mkfs_ok_iff (host : List UInt8 → HostFile) {contents : List (List UInt8)}
    (hlen : contents.length ≤ ninodes) (hfits : ∀ entry ∈ contents, Fits host entry) (buf : Buf) :
    (∃ fs, mkfs host contents buf (fun _ => nullBlock) = .ok () fs) ↔
      (contents.map (entryBlocks host)).sum ≤ 4093 := by
  obtain ⟨fs₁, hc⟩ := create_ok
  obtain ⟨r, fs₁', hc', hQ⟩ := (treediskCreate_free (A := ramArray) (d := fun _ => nullBlock) rfl
    ninodes).total (s := fun _ => nullBlock) ⟨trivial, fun _ _ => rfl⟩ fun e fs he _ => by
      rw [hc] at he
      simp at he
  obtain ⟨rfl, rfl⟩ : 0 = r ∧ fs₁ = fs₁' := by
    rw [hc] at hc'
    exact ⟨(EStateM.Result.ok.inj hc').1, (EStateM.Result.ok.inj hc').2⟩
  rcases hQ with ⟨hneg, -⟩ | ⟨D, fl, ⟨-, hfl, hn, hf⟩, hs₁⟩
  · exact absurd hneg (by decide)
  have hops : ∀ op ∈ tableWrites host contents 0 buf, op.offset < 2 ^ 32 - 1 := fun op hop =>
    lt_trans (offset_lt_of_mem_tableWrites hfits hop) (by decide)
  obtain ⟨hok, herror⟩ := hf.writes_fit hfl hn hs₁ (tableWrites host contents 0 buf) hops
  have hsum := sum_blocksNeeded host hlen buf
  have hblocks : inodeBlocksFor ninodes = 2 := by decide
  have hroom : fsDiskBlocks - 2 - 1 = 4093 := by decide
  rw [hblocks, hsum, hroom] at hok herror
  rw [mkfs_eq host contents buf hc, runWrites, bind_apply]
  rcases Nat.lt_or_ge 4093 (contents.map (entryBlocks host)).sum with hlt | hle
  · obtain ⟨s₂, hs₂⟩ := herror.2 hlt
    have hrun : treediskWrites treedisk (tableWrites host contents 0 buf) fs₁ = _ := hs₂
    rw [hrun]
    refine iff_of_false ?_ (Nat.not_le.2 hlt)
    rintro ⟨fs, hfs⟩
    exact absurd hfs (by simp)
  · obtain ⟨s₂, hs₂⟩ := hok.2 hle
    have hrun : treediskWrites treedisk (tableWrites host contents 0 buf) fs₁ = _ := hs₂
    rw [hrun]
    exact iff_of_true ⟨s₂, rfl⟩ hle

section Image

variable {host : List UInt8 → HostFile} {kernels : List HostFile} {contents : List (List UInt8)}
  {buf : Buf} {image : List UInt8}

/-- The assertions of `main` have been checked. -/
theorem sizes_of_loadKernels :
    ∀ {kernels : List HostFile} {execs : List UInt8}, loadKernels kernels = .ok execs →
      ∀ f ∈ kernels, 0 < f.bytes.length ∧ f.bytes.length ≤ execSize := by
  intro kernels
  induction kernels with
  | nil => exact fun _ f hf => by simp at hf
  | cons g kernels ih =>
      intro execs h f hf
      rw [loadKernels] at h
      cases hg : loadKernel g with
      | error e => simp [hg, bind, Except.bind] at h
      | ok exec =>
          cases hk : loadKernels kernels with
          | error e => simp [hg, hk, bind, Except.bind] at h
          | ok execs' =>
              rcases List.mem_cons.1 hf with rfl | hf
              · by_contra hsize
                rw [loadKernel, if_neg hsize] at hg
                simp at hg
              · exact ih hk f hf

/-- An image that `main` has written. -/
theorem main_ok (hkernels : kernels.length ≤ grassNexec)
    (hmain : main host kernels contents buf = .ok image) :
    (∀ f ∈ kernels, 0 < f.bytes.length ∧ f.bytes.length ≤ execSize) ∧
      ∃ fs, mkfs host contents buf (fun _ => nullBlock) = .ok () fs ∧
        (∀ i (h : i < kernels.length) k (j : Fin 512), k < grassExecSegment →
          imageBlock image (grassExecStart + grassExecSegment * i + k) j =
            (kernels.get ⟨i, h⟩).bytes.getD (512 * k + j) 0) ∧
        ∀ off, off < fsDiskBlocks → imageBlock image (grassFsStart + off) = fs off := by
  cases hfs : mkfs host contents buf fun _ => nullBlock with
  | error e fs =>
      rw [main, hfs] at hmain
      simp at hmain
  | ok u fs =>
      cases hexecs : loadKernels kernels with
      | error e =>
          rw [main, hfs] at hmain
          simp [hexecs, bind, Except.bind] at hmain
      | ok execs =>
          have hsizes := sizes_of_loadKernels hexecs
          obtain ⟨image', himage', -, hparts, hblocks⟩ := main_parts host hkernels hsizes hfs
          obtain rfl : image' = image := Except.ok.inj (himage'.symm.trans hmain)
          exact ⟨hsizes, fs, rfl, hparts, hblocks⟩

/-- There is an image if the blocks fit. -/
theorem exists_image (hkernels : kernels.length ≤ grassNexec)
    (hsizes : ∀ f ∈ kernels, 0 < f.bytes.length ∧ f.bytes.length ≤ execSize)
    (hlen : contents.length ≤ ninodes) (hfits : ∀ entry ∈ contents, Fits host entry)
    (hsum : (contents.map (entryBlocks host)).sum ≤ 4093) :
    ∃ image, main host kernels contents buf = .ok image := by
  obtain ⟨fs, hfs⟩ := (mkfs_ok_iff host hlen hfits buf).2 hsum
  obtain ⟨image, himage, -⟩ := main_parts host hkernels hsizes hfs
  exact ⟨image, himage⟩

end Image

/-- **There is an image if and only if the blocks fit.**  For a table of at most 128 entries, whose
texts are shorter than a block and whose files are not longer than the buffer, `main` builds an
image if and only if no binary of the kernel is empty or longer than its segment, and the trees of
all the entries together take at most the 4093 blocks that are left beside the superblock and the
inodes. -/
theorem image_built_iff (host : List UInt8 → HostFile) (kernels : List HostFile)
    (hkernels : kernels.length ≤ grassNexec) (contents : List (List UInt8))
    (hlen : contents.length ≤ ninodes) (hfits : ∀ entry ∈ contents, Fits host entry) (buf : Buf) :
    (∃ image, main host kernels contents buf = .ok image) ↔
      (∀ f ∈ kernels, 0 < f.bytes.length ∧ f.bytes.length ≤ execSize) ∧
        (contents.map (entryBlocks host)).sum ≤ 4093 := by
  constructor
  · rintro ⟨image, himage⟩
    obtain ⟨hsizes, fs, hfs, -⟩ := main_ok hkernels himage
    exact ⟨hsizes, (mkfs_ok_iff host hlen hfits buf).1 ⟨fs, hfs⟩⟩
  · rintro ⟨hsizes, hsum⟩
    exact exists_image hkernels hsizes hlen hfits hsum

/-- A file of the host of 131072 bytes, as long as the buffer. -/
def longFile : HostFile where
  bytes := List.replicate 131072 0
  chunk _ := 131072
  chunk_pos _ := Nat.succ_pos _

/-- Each of the longest files takes 259 blocks. -/
theorem entryBlocks_long {host : List UInt8 → HostFile} {entry : List UInt8} (hname : isName entry)
    (hlen : (host entry.tail).bytes.length = 131072) : entryBlocks host entry = 259 := by
  rw [entryBlocks, entrySize, if_pos hname, hlen]
  decide +kernel

/-- There is an image with 15 of the longest files, but none with 16, whose bytes would be 2 MB, the
size of the file system. -/
theorem image_built_iff_long :
    (∃ image, main (fun _ => longFile) [] (List.replicate 15 [35]) (fun _ => 0) = .ok image) ∧
      ¬ ∃ image, main (fun _ => longFile) [] (List.replicate 16 [35]) (fun _ => 0) = .ok image := by
  have hlong : longFile.bytes.length = 131072 := List.length_replicate
  have hblocks : entryBlocks (fun _ => longFile) [35] = 259 := entryBlocks_long rfl hlong
  have hfits : ∀ n, ∀ entry ∈ List.replicate n [35], Fits (fun _ => longFile) entry := by
    intro n entry hentry
    rw [List.eq_of_mem_replicate hentry, Fits, if_pos (show isName [35] from rfl), hlong]
    decide
  have hsum : ∀ n, ((List.replicate n [35]).map (entryBlocks fun _ => longFile)).sum = n * 259 := by
    intro n
    rw [List.map_replicate, List.sum_replicate_nat, hblocks]
  have hiff := fun n hn => image_built_iff (fun _ => longFile) [] (by decide)
    (List.replicate n [35]) hn (hfits n) fun _ => 0
  constructor
  · rw [hiff 15 (by decide), hsum]
    exact ⟨by simp, by decide⟩
  · rw [hiff 16 (by decide), hsum]
    exact fun h => absurd h.2 (by decide)

end Mkfs

end Egos
