/-
**The identity mapping** (`setup_identity_region` and `pagetable_identity_mapping` of
`earth/cpu_mmu.c`).

The root table has an entry for every 4 MB.  `setup_identity_region` gets the table of the second
level for its 4 MB from the root, or allocates it, and stores an entry for each page of the region.

Main definitions:

* `Egos.PageTables` — the memory with the tables, and the frames that `mmu_alloc` will return;
* `Egos.PageTables.setupIdentityRegion`, `Egos.PageTables.pagetableIdentityMapping` — the code;
* `Egos.Region` — a page-aligned region inside of 4 MB, with the flags of a leaf;
* `Egos.PageTables.Built` — **the tables hold given entries**, one for each page.

Main results:

* `Egos.PageTables.Built.setupIdentityRegion` — a call replaces the entries of its region;
* `Egos.PageTables.Built.setupRegions` — a sequence of calls;
* `Egos.PageTables.identity_mapped` — **the tables are an identity map of the regions**;
* `Egos.PageTables.pagetableIdentityMapping_walk` — the address space of the kernel.
-/

import Mathlib.Data.Finset.Card
import Egos.Frames
import Egos.Sv32

set_option autoImplicit false

namespace Egos

open Function (update update_of_ne update_self)
open Sv32 (Memory slot slot_ne slot_inj LeafFlags decode walk)

/-! ### The code -/

/-- The memory, and the results of the next calls of `mmu_alloc`. -/
structure PageTables where
  memory : Memory
  /-- The frames with their addresses, in the order in which they will be allocated. -/
  frames : List (ℕ × UInt32)
  root : UInt32
  /-- `table[frame_id].pid` -/
  pid : ℕ → ℤ
  pidToPagetableBase : ℤ → UInt32

namespace PageTables

/-- `earth->mmu_alloc` and the pid of the frame; there is no result if no frame is left. -/
def mmuAlloc (s : PageTables) (pid : ℤ) : Option (UInt32 × PageTables) :=
  match s.frames with
  | [] => none
  | (frameId, addr) :: frames =>
      some (addr, { s with frames := frames, pid := update s.pid frameId pid })

/-- `memset(page, 0, PAGE_SIZE)` -/
def clear (m : Memory) (page : UInt32) : Memory :=
  fun a => if page.toNat ≤ a ∧ a < page.toNat + 4096 then 0 else m a

/-- `table[v] = e` -/
def store (m : Memory) (table v e : UInt32) : Memory :=
  update m (slot table.toNat v.toNat) e

/-- `table[v]` -/
def load (m : Memory) (table v : UInt32) : UInt32 := m (slot table.toNat v.toNat)

/-- The first part of `setup_identity_region`: the leaf. -/
def getLeaf (s : PageTables) (pid : ℤ) (vpn1 : UInt32) : Option (UInt32 × PageTables) :=
  if load s.memory s.root vpn1 &&& 0x1 ≠ 0 then
    -- Leaf has been allocated
    some (load s.memory s.root vpn1 <<< 2 &&& 0xFFFFF000, s)
  else do
    -- Leaf has not been allocated
    let (leaf, s) ← s.mmuAlloc pid
    return (leaf,
      { s with memory := store (clear s.memory leaf) s.root vpn1 (leaf >>> 2 ||| 0x1) })

/-- The loop of `setup_identity_region`, which stores the entries in the leaf page table. -/
def storeEntries (m : Memory) (leaf vpn0 addr flag : UInt32) (npages : ℕ) : Memory :=
  (List.range npages).foldl (fun m i =>
    store m leaf (vpn0 + UInt32.ofNat i) ((addr + UInt32.ofNat i * 4096) >>> 2 ||| flag)) m

/-- `setup_identity_region` -/
def setupIdentityRegion (s : PageTables) (pid : ℤ) (addr npages flag : UInt32) :
    Option PageTables := do
  let vpn1 := addr >>> 22
  let (leaf, s) ← s.getLeaf pid vpn1
  let vpn0 := addr >>> 12 &&& 0x3FF
  return { s with memory := storeEntries s.memory leaf vpn0 addr flag npages.toNat }

/-- The first part of `pagetable_identity_mapping`: the root. -/
def allocRoot (s : PageTables) (pid : ℤ) : Option PageTables := do
  let (root, s) ← s.mmuAlloc pid
  return { s with
    root := root
    memory := clear s.memory root
    pidToPagetableBase := update s.pidToPagetableBase pid root }

/-- `OS_RWX` -/
def osRwx : UInt32 := 0xF

/-- `UART0_BASE` -/
def uart0Base (platform : Platform) : UInt32 :=
  if platform = .qemuLatest then 0x10010000 else 0x10013000

/-- `SPI_BASE` -/
def spiBase (platform : Platform) : UInt32 := if platform = .arty then 0x10024000 else 0x10050000

/-- `pagetable_identity_mapping` -/
def pagetableIdentityMapping (s : PageTables) (platform : Platform) (pid : ℤ) :
    Option PageTables := do
  let s ← s.allocRoot pid
  -- Allocate the leaf page tables
  let s ← s.setupIdentityRegion pid 0x02000000 16 osRwx           -- CLINT
  let s ← s.setupIdentityRegion pid (uart0Base platform) 1 osRwx  -- UART0
  let s ← s.setupIdentityRegion pid (spiBase platform) 1 osRwx    -- SPI1
  let s ← s.setupIdentityRegion pid 0x20400000 1024 osRwx         -- boot ROM
  let s ← s.setupIdentityRegion pid 0x20800000 1024 osRwx         -- disk image
  let s ← s.setupIdentityRegion pid 0x80000000 1024 osRwx         -- DTIM memory
  -- ITIM memory is 32MB on QEMU
  (List.range 8).foldlM (fun s i =>
    s.setupIdentityRegion pid (0x08000000 + UInt32.ofNat i * 0x400000) 1024 osRwx) s

end PageTables

/-! ### Regions -/

/-- A call of `setup_identity_region` for a page-aligned region that does not cross a boundary of 4
MB, with the flags of a leaf. -/
structure Region where
  pid : ℤ
  addr : UInt32
  npages : UInt32
  flag : UInt32
  aligned : addr.toNat % 2 ^ 12 = 0
  inside : addr.toNat % 2 ^ 22 + npages.toNat * 2 ^ 12 ≤ 2 ^ 22
  flags : LeafFlags flag.toNat

namespace Region

/-- The first page. -/
def page (r : Region) : ℕ := r.addr.toNat / 2 ^ 12

/-- The 4 MB that the region is in. -/
def block (r : Region) : ℕ := r.addr.toNat / 2 ^ 22

/-- The pages of the region. -/
def Covers (r : Region) (n : ℕ) : Prop := r.page ≤ n ∧ n < r.page + r.npages.toNat

instance (r : Region) (n : ℕ) : Decidable (r.Covers n) := inferInstanceAs (Decidable (_ ∧ _))

/-- The place of the first page in its block. -/
def index (r : Region) : ℕ := r.page % 2 ^ 10

theorem page_eq (r : Region) : r.page = r.block * 2 ^ 10 + r.index := by
  unfold index page block
  omega

theorem index_add_le (r : Region) : r.index + r.npages.toNat ≤ 2 ^ 10 := by
  have haligned := r.aligned
  have hinside := r.inside
  unfold index page
  omega

theorem block_lt (r : Region) : r.block < 2 ^ 10 := by
  have hlt := r.addr.toNat_lt
  unfold block
  omega

theorem toNat_vpn1 (r : Region) : (r.addr >>> 22).toNat = r.block := by
  rw [UInt32.toNat_shiftRight]
  exact Nat.shiftRight_eq_div_pow _ _

theorem toNat_vpn0 (r : Region) : (r.addr >>> 12 &&& 0x3FF).toNat = r.index := by
  rw [UInt32.toNat_and, UInt32.toNat_shiftRight]
  refine (Nat.and_two_pow_sub_one_eq_mod _ 10).trans ?_
  exact congrArg (· % 2 ^ 10) (Nat.shiftRight_eq_div_pow _ _)

/-- **The pages of a region**, by their places in the block. -/
theorem covers_iff (r : Region) {u w : ℕ} (hw : w < 2 ^ 10) :
    r.Covers (u * 2 ^ 10 + w) ↔ u = r.block ∧ ∃ i < r.npages.toNat, w = r.index + i := by
  have hpage := r.page_eq
  have hindex := r.index_add_le
  unfold Covers
  constructor
  · intro h
    have hu : u = r.block := by omega
    exact ⟨hu, w - r.index, by omega, by omega⟩
  · rintro ⟨rfl, i, hi, rfl⟩
    omega

end Region

theorem leafFlags_osRwx : LeafFlags PageTables.osRwx.toNat :=
  ⟨by decide, by decide, .inl (by decide), fun _ => by decide⟩

/-- The flag of the last region that covers a page. -/
def lastFlag (rs : List Region) (n : ℕ) : Option UInt32 :=
  (rs.reverse.find? fun r => r.Covers n).map Region.flag

/-- The blocks of 4 MB that regions are in. -/
def blocks (rs : List Region) : Finset ℕ := (rs.map Region.block).toFinset

namespace PageTables

/-- The calls for a list of regions. -/
def setupRegions (s : PageTables) (rs : List Region) : Option PageTables :=
  rs.foldlM (fun s r => s.setupIdentityRegion r.pid r.addr r.npages r.flag) s

/-! ### The entries -/

/-- The entry that maps a page to itself. -/
def entry (n : ℕ) (flag : UInt32) : UInt32 := UInt32.ofNat (n * 2 ^ 12) >>> 2 ||| flag

/-- The entry that the loop stores for a page of the region. -/
theorem entry_eq (r : Region) (i : ℕ) :
    (r.addr + UInt32.ofNat i * 4096) >>> 2 ||| r.flag = entry (r.page + i) r.flag := by
  have haddr : r.addr + UInt32.ofNat i * 4096 = UInt32.ofNat ((r.page + i) * 2 ^ 12) := by
    have haligned := r.aligned
    refine UInt32.toNat_inj.1 ?_
    rw [UInt32.toNat_add, UInt32.toNat_mul, UInt32.toNat_ofNat', UInt32.toNat_ofNat']
    change (r.addr.toNat + i % 2 ^ 32 * 4096 % 2 ^ 32) % 2 ^ 32 = _
    unfold Region.page
    omega
  rw [haddr, entry]

/-- The entries of all pages, with those of a region replaced. -/
def remap (c : ℕ → UInt32) (r : Region) : ℕ → UInt32 :=
  fun n => if r.Covers n then entry n r.flag else c n

/-- The frames are distinct pages. -/
def FramesOk (frames : List (ℕ × UInt32)) : Prop :=
  (frames.map Prod.snd).Nodup ∧ ∀ f ∈ frames, f.2.toNat % 2 ^ 12 = 0

/-- **The tables hold the entries `c`.**  There is a table of the second level for each block of
`bs`, at the address that `leaf` gives; the other pages have no entry. -/
structure Built (leaf : ℕ → UInt32) (bs : Finset ℕ) (c : ℕ → UInt32) (s : PageTables) : Prop where
  root_aligned : s.root.toNat % 2 ^ 12 = 0
  root_entry : ∀ v < 2 ^ 10,
    s.memory (slot s.root.toNat v) = if v ∈ bs then leaf v >>> 2 ||| 0x1 else 0
  leaf_aligned : ∀ v ∈ bs, (leaf v).toNat % 2 ^ 12 = 0
  leaf_entry : ∀ v ∈ bs, ∀ w < 2 ^ 10,
    s.memory (slot (leaf v).toNat w) = c (v * 2 ^ 10 + w)
  leaf_inj : Set.InjOn leaf bs
  leaf_ne_root : ∀ v ∈ bs, leaf v ≠ s.root
  no_entry : ∀ n, n / 2 ^ 10 ∉ bs → c n = 0
  frames_ok : FramesOk s.frames
  frames_fresh : ∀ f ∈ s.frames, f.2 ≠ s.root ∧ ∀ v ∈ bs, leaf v ≠ f.2

/-- A fresh zeroed root. -/
structure Fresh (s : PageTables) : Prop where
  root_aligned : s.root.toNat % 2 ^ 12 = 0
  root_zero : ∀ v < 2 ^ 10, s.memory (slot s.root.toNat v) = 0
  frames_ok : FramesOk s.frames
  frames_ne : ∀ f ∈ s.frames, f.2 ≠ s.root

theorem Fresh.built {s : PageTables} (h : s.Fresh) : s.Built (fun _ => 0) ∅ fun _ => 0 where
  root_aligned := h.root_aligned
  root_entry v hv := by rw [h.root_zero v hv, if_neg (Finset.notMem_empty v)]
  leaf_aligned v hv := absurd hv (Finset.notMem_empty v)
  leaf_entry v hv := absurd hv (Finset.notMem_empty v)
  leaf_inj v hv := absurd hv (Finset.notMem_empty v)
  leaf_ne_root v hv := absurd hv (Finset.notMem_empty v)
  no_entry _ _ := rfl
  frames_ok := h.frames_ok
  frames_fresh f hf := ⟨h.frames_ne f hf, fun v hv => absurd hv (Finset.notMem_empty v)⟩

/-! ### Memory -/

section

variable {m : Memory} {table page : UInt32} {v : ℕ}

theorem clear_self (hv : v < 2 ^ 10) : clear m page (slot page.toNat v) = 0 := by
  refine if_pos ?_
  unfold slot
  omega

theorem clear_of_ne (htable : table.toNat % 2 ^ 12 = 0) (hpage : page.toNat % 2 ^ 12 = 0)
    (hne : table ≠ page) (hv : v < 2 ^ 10) :
    clear m page (slot table.toNat v) = m (slot table.toNat v) := by
  have hne : table.toNat ≠ page.toNat := fun h => hne (UInt32.toNat_inj.1 h)
  refine if_neg ?_
  unfold slot
  omega

theorem store_of_ne {e i : UInt32} {a : ℕ} (h : a ≠ slot table.toNat i.toNat) :
    store m table i e a = m a := update_of_ne h _ _

theorem store_self (e i : UInt32) : store m table i e (slot table.toNat i.toNat) = e :=
  update_self _ _ _

theorem toNat_add_ofNat {x : UInt32} {i : ℕ} (h : x.toNat + i < 2 ^ 32) :
    (x + UInt32.ofNat i).toNat = x.toNat + i := by
  rw [UInt32.toNat_add, UInt32.toNat_ofNat']
  omega

variable {leaf vpn0 addr flag : UInt32}

theorem storeEntries_succ (n : ℕ) :
    storeEntries m leaf vpn0 addr flag (n + 1) =
      store (storeEntries m leaf vpn0 addr flag n) leaf (vpn0 + UInt32.ofNat n)
        ((addr + UInt32.ofNat n * 4096) >>> 2 ||| flag) := by
  rw [storeEntries, List.range_succ, List.foldl_append]
  rfl

/-- The loop leaves the other words as they are. -/
theorem storeEntries_of_ne {n a : ℕ} (hn : vpn0.toNat + n ≤ 2 ^ 10)
    (ha : ∀ i < n, a ≠ slot leaf.toNat (vpn0.toNat + i)) :
    storeEntries m leaf vpn0 addr flag n a = m a := by
  induction n with
  | zero => rfl
  | succ n ih =>
      have hlast := ha n (Nat.lt_succ_self n)
      rw [← toNat_add_ofNat (show vpn0.toNat + n < 2 ^ 32 by omega)] at hlast
      rw [storeEntries_succ, store_of_ne hlast]
      exact ih (by omega) fun i hi => ha i (hi.trans (Nat.lt_succ_self n))

/-- **The loop** stores an entry for every page. -/
theorem storeEntries_self {n i : ℕ} (hn : vpn0.toNat + n ≤ 2 ^ 10) (hi : i < n) :
    storeEntries m leaf vpn0 addr flag n (slot leaf.toNat (vpn0.toNat + i)) =
      (addr + UInt32.ofNat i * 4096) >>> 2 ||| flag := by
  induction n with
  | zero => exact absurd hi (Nat.not_lt_zero i)
  | succ n ih =>
      have hindex : (vpn0 + UInt32.ofNat n).toNat = vpn0.toNat + n := toNat_add_ofNat (by omega)
      rw [storeEntries_succ]
      rcases Nat.lt_succ_iff_lt_or_eq.1 hi with hlt | rfl
      · rw [store_of_ne ?_, ih (by omega) hlt]
        rw [hindex, Ne, slot_inj]
        omega
      · rw [← hindex, store_self]

end

/-! ### The leaf -/

/-- An entry that points to a table is valid. -/
theorem pointer_valid {a : UInt32} (ha : a.toNat % 2 ^ 12 = 0) :
    (a >>> 2 ||| 0x1) &&& 0x1 ≠ 0 := by
  intro h
  have hentry : (a >>> 2 ||| 0x1).toNat = 2 ^ 10 * (a.toNat / 2 ^ 12) + 1 :=
    Sv32.toNat_shiftRight_or ha (by decide)
  have hbit := congrArg UInt32.toNat h
  rw [UInt32.toNat_and, hentry] at hbit
  change _ &&& 1 = 0 at hbit
  rw [Nat.and_one_is_mod] at hbit
  omega

section

variable {leaf : ℕ → UInt32} {bs : Finset ℕ} {c : ℕ → UInt32} {s : PageTables}

/-- The frame that is allocated next. -/
theorem Built.mmuAlloc (h : s.Built leaf bs c) (hroom : s.frames ≠ []) (pid : ℤ) :
    ∃ a s', s.mmuAlloc pid = some (a, s') ∧ s.frames.length = s'.frames.length + 1 ∧
      s'.memory = s.memory ∧ s'.root = s.root ∧ a.toNat % 2 ^ 12 = 0 ∧ a ≠ s.root ∧
      (∀ v ∈ bs, leaf v ≠ a) ∧ FramesOk s'.frames ∧
      ∀ f ∈ s'.frames, f.2 ≠ a ∧ f.2 ≠ s.root ∧ ∀ v ∈ bs, leaf v ≠ f.2 := by
  obtain ⟨⟨frameId, a⟩, frames, hframes⟩ := List.exists_cons_of_ne_nil hroom
  obtain ⟨hnodup, haligned⟩ := h.frames_ok
  have hfresh := h.frames_fresh
  rw [hframes] at hnodup haligned hfresh
  obtain ⟨hnotMem, hnodup⟩ := List.nodup_cons.1 hnodup
  refine ⟨a, { s with frames := frames, pid := update s.pid frameId pid }, ?_, ?_, rfl,
    rfl, haligned _ List.mem_cons_self, (hfresh _ List.mem_cons_self).1,
    (hfresh _ List.mem_cons_self).2, ⟨hnodup, fun f hf => haligned f (List.mem_cons_of_mem _ hf)⟩,
    fun f hf => ⟨?_, hfresh f (List.mem_cons_of_mem _ hf)⟩⟩
  · rw [PageTables.mmuAlloc, hframes]
  · rw [hframes, List.length_cons]
  · intro heq
    exact hnotMem (List.mem_map.2 ⟨f, hf, heq⟩)

/-- What holds of the tables that are there and of a new one. -/
theorem forall_insert_leaf {P : ℕ → UInt32 → Prop} {v : ℕ} {a : UInt32} (hnew : v ∉ bs)
    (ha : P v a) (hold : ∀ u ∈ bs, P u (leaf u)) :
    ∀ u ∈ insert v bs, P u (update leaf v a u) := by
  intro u hu
  rcases Finset.mem_insert.1 hu with rfl | hu
  · rw [update_self]
    exact ha
  · rw [update_of_ne (ne_of_mem_of_not_mem hu hnew)]
    exact hold u hu

/-- **A new table** of the second level has no entry. -/
theorem Built.newLeaf (h : s.Built leaf bs c) {v : UInt32} (hv : v.toNat < 2 ^ 10)
    (hnew : v.toNat ∉ bs) (hroom : s.frames ≠ []) (pid : ℤ) :
    ∃ a s', s.getLeaf pid v = some (a, s') ∧ s'.root = s.root ∧
      s.frames.length = s'.frames.length + 1 ∧
      s'.Built (update leaf v.toNat a) (insert v.toNat bs) c := by
  obtain ⟨a, s', halloc, hlen, hmem, hroot, ha, haroot, haleaf, hok, hfresh⟩ :=
    h.mmuAlloc hroom pid
  have hload : load s.memory s.root v = 0 := by
    rw [load, h.root_entry _ hv, if_neg hnew]
  refine ⟨a, { s' with memory := store (clear s'.memory a) s'.root v (a >>> 2 ||| 0x1) }, ?_, hroot,
    hlen, ?_⟩
  · rw [getLeaf, hload, if_neg (by decide), halloc]
    rfl
  · refine ⟨hroot ▸ h.root_aligned, ?_, ?_, ?_, ?_, ?_, ?_, hok, ?_⟩
    · intro u hu
      dsimp only
      rw [hroot, hmem]
      by_cases huv : u = v.toNat
      · subst huv
        rw [store_self, if_pos (Finset.mem_insert_self _ _), update_self]
      · rw [store_of_ne (fun h => huv (slot_inj.1 h)), clear_of_ne h.root_aligned ha haroot.symm hu,
          h.root_entry u hu, update_of_ne huv]
        simp only [Finset.mem_insert, huv, false_or]
    · exact forall_insert_leaf (P := fun _ b => b.toNat % 2 ^ 12 = 0) hnew ha h.leaf_aligned
    · dsimp only
      rw [hroot, hmem]
      refine forall_insert_leaf (P := fun u b => ∀ w < 2 ^ 10,
        store (clear s.memory a) s.root v (a >>> 2 ||| 0x1) (slot b.toNat w) =
          c (u * 2 ^ 10 + w)) hnew ?_ ?_
      · -- The new table is cleared.
        intro w hw
        have hzero : c (v.toNat * 2 ^ 10 + w) = 0 := h.no_entry _ (by
          rw [show (v.toNat * 2 ^ 10 + w) / 2 ^ 10 = v.toNat by omega]
          exact hnew)
        rw [hzero, store_of_ne (slot_ne ha h.root_aligned (mt UInt32.toNat_inj.1 haroot) hw hv),
          clear_self hw]
      · intro u hu w hw
        have hne := h.leaf_ne_root u hu
        rw [store_of_ne (slot_ne (h.leaf_aligned u hu) h.root_aligned
          (mt UInt32.toNat_inj.1 hne) hw hv), clear_of_ne (h.leaf_aligned u hu) ha (haleaf u hu) hw]
        exact h.leaf_entry u hu w hw
    · have hold : Set.EqOn leaf (update leaf v.toNat a) bs := fun u hu =>
        (update_of_ne (ne_of_mem_of_not_mem hu hnew) _ _).symm
      rw [Finset.coe_insert, Set.injOn_insert hnew]
      refine ⟨h.leaf_inj.congr hold, ?_⟩
      rintro ⟨u, hu, heq⟩
      rw [← hold hu, update_self] at heq
      exact haleaf u hu heq
    · dsimp only
      rw [hroot]
      exact forall_insert_leaf (P := fun _ b => b ≠ s.root) hnew haroot h.leaf_ne_root
    · intro n hn
      exact h.no_entry n fun hmem => hn (Finset.mem_insert_of_mem hmem)
    · intro f hf
      obtain ⟨hfa, hfroot, hfleaf⟩ := hfresh f hf
      exact ⟨hroot ▸ hfroot, forall_insert_leaf (P := fun _ b => b ≠ f.2) hnew hfa.symm hfleaf⟩

/-- The table of the second level, which is there or is allocated. -/
theorem Built.getLeaf (h : s.Built leaf bs c) {v : UInt32} (hv : v.toNat < 2 ^ 10)
    (hroom : v.toNat ∉ bs → s.frames ≠ []) (pid : ℤ) :
    ∃ leaf' s', s.getLeaf pid v = some (leaf' v.toNat, s') ∧ s'.root = s.root ∧
      s'.frames.length + (insert v.toNat bs).card = s.frames.length + bs.card ∧
      s'.Built leaf' (insert v.toNat bs) c := by
  by_cases hmem : v.toNat ∈ bs
  · have hload : load s.memory s.root v = leaf v.toNat >>> 2 ||| 0x1 := by
      rw [load, h.root_entry _ hv, if_pos hmem]
    have haligned := h.leaf_aligned _ hmem
    refine ⟨leaf, s, ?_, rfl, by rw [Finset.insert_eq_of_mem hmem],
      by rw [Finset.insert_eq_of_mem hmem]; exact h⟩
    rw [PageTables.getLeaf, hload, if_pos (pointer_valid haligned), Sv32.shiftLeft_pointer haligned]
  · obtain ⟨a, s', hget, hroot, hlen, hbuilt⟩ := h.newLeaf hv hmem (hroom hmem) pid
    refine ⟨_, s', ?_, hroot, ?_, hbuilt⟩
    · rw [hget, update_self]
    · rw [Finset.card_insert_of_notMem hmem]
      omega

/-- **The loop replaces the entries of a region.** -/
theorem Built.storeEntries (h : s.Built leaf bs c) (r : Region) (hr : r.block ∈ bs) :
    Built leaf bs (remap c r)
      { s with
        memory := storeEntries s.memory (leaf r.block) (r.addr >>> 12 &&& 0x3FF) r.addr r.flag
          r.npages.toNat } := by
  have hvpn0 := r.toNat_vpn0
  have hfits := r.index_add_le
  refine ⟨h.root_aligned, ?_, h.leaf_aligned, ?_, h.leaf_inj, h.leaf_ne_root, ?_, h.frames_ok,
    h.frames_fresh⟩
  · intro u hu
    refine (storeEntries_of_ne (by omega) fun i hi => ?_).trans (h.root_entry u hu)
    exact slot_ne h.root_aligned (h.leaf_aligned _ hr)
      (mt UInt32.toNat_inj.1 (h.leaf_ne_root _ hr).symm) hu (by omega)
  · intro u hu w hw
    by_cases hcovers : r.Covers (u * 2 ^ 10 + w)
    · obtain ⟨rfl, i, hi, rfl⟩ := (r.covers_iff hw).1 hcovers
      rw [remap, if_pos hcovers, ← Nat.add_assoc, ← r.page_eq, ← entry_eq, ← hvpn0]
      exact storeEntries_self (by omega) hi
    · -- The entry is in another table, or at another place of the table of the region.
      rw [remap, if_neg hcovers]
      refine (storeEntries_of_ne (by omega) fun i hi heq => ?_).trans (h.leaf_entry u hu w hw)
      by_cases hblock : u = r.block
      · rw [hblock, slot_inj, hvpn0] at heq
        exact hcovers ((r.covers_iff hw).2 ⟨hblock, i, hi, heq⟩)
      · exact slot_ne (h.leaf_aligned u hu) (h.leaf_aligned _ hr)
          (mt UInt32.toNat_inj.1 fun heq => hblock (h.leaf_inj hu hr heq)) hw (by omega) heq
  · intro n hn
    rw [remap, if_neg ?_]
    · exact h.no_entry n hn
    · intro hcovers
      rw [← Nat.div_add_mod' n (2 ^ 10), r.covers_iff (Nat.mod_lt _ (by decide))] at hcovers
      exact hn (hcovers.1 ▸ hr)

/-! ### Sequences of calls -/

/-- **A call replaces the entries of its region**, if there is a frame for the table. -/
theorem Built.setupIdentityRegion (h : s.Built leaf bs c) (r : Region)
    (hroom : r.block ∉ bs → s.frames ≠ []) :
    ∃ leaf' s', s.setupIdentityRegion r.pid r.addr r.npages r.flag = some s' ∧ s'.root = s.root ∧
      s'.frames.length + (insert r.block bs).card = s.frames.length + bs.card ∧
      s'.Built leaf' (insert r.block bs) (remap c r) := by
  have hvpn1 := r.toNat_vpn1
  rw [← hvpn1] at hroom
  obtain ⟨leaf', s', hget, hroot, hlen, hbuilt⟩ :=
    h.getLeaf (by rw [hvpn1]; exact r.block_lt) hroom r.pid
  rw [hvpn1] at hget hlen hbuilt
  have hstored := hbuilt.storeEntries r (Finset.mem_insert_self _ _)
  refine ⟨leaf', _, ?_, ?_, ?_, hstored⟩
  · rw [PageTables.setupIdentityRegion, hget]
    rfl
  · exact hroot
  · exact hlen

end

theorem blocks_cons (r : Region) (rs : List Region) :
    blocks (r :: rs) = insert r.block (blocks rs) :=
  List.toFinset_cons

/-- **A sequence of calls** replaces the entries of its regions, one after the other. -/
theorem Built.setupRegions (rs : List Region) :
    ∀ {leaf : ℕ → UInt32} {bs : Finset ℕ} {c : ℕ → UInt32} {s : PageTables}, s.Built leaf bs c →
      (bs ∪ blocks rs).card ≤ bs.card + s.frames.length →
      ∃ leaf' s', s.setupRegions rs = some s' ∧ s'.root = s.root ∧
        s'.Built leaf' (bs ∪ blocks rs) (rs.foldl remap c) := by
  induction rs with
  | nil =>
      intro leaf bs c s h _
      refine ⟨leaf, s, rfl, rfl, ?_⟩
      rw [blocks, List.map_nil, List.toFinset_nil, Finset.union_empty]
      exact h
  | cons r rs ih =>
      intro leaf bs c s h hroom
      have hblocks : bs ∪ blocks (r :: rs) = insert r.block bs ∪ blocks rs := by
        rw [blocks_cons, Finset.union_insert, Finset.insert_union]
      rw [hblocks] at hroom ⊢
      have hcard : (insert r.block bs).card ≤ (insert r.block bs ∪ blocks rs).card :=
        Finset.card_le_card Finset.subset_union_left
      have hframe : r.block ∉ bs → s.frames ≠ [] := by
        intro hnew hnil
        rw [Finset.card_insert_of_notMem hnew] at hcard
        rw [hnil, List.length_nil] at hroom
        omega
      obtain ⟨leaf₁, s₁, hstep, hroot₁, hlen, hbuilt⟩ := h.setupIdentityRegion r hframe
      obtain ⟨leaf', s', hrun, hroot, hbuilt'⟩ := ih hbuilt (by omega)
      refine ⟨leaf', s', ?_, hroot.trans hroot₁, hbuilt'⟩
      rw [PageTables.setupRegions, List.foldlM_cons, hstep]
      exact hrun

/-! ### The translation -/

theorem lastFlag_append (rs : List Region) (r : Region) (n : ℕ) :
    lastFlag (rs ++ [r]) n = if r.Covers n then some r.flag else lastFlag rs n := by
  rw [lastFlag, List.reverse_append, List.reverse_singleton, List.singleton_append, List.find?_cons]
  by_cases h : r.Covers n
  · rw [if_pos h, decide_eq_true h]
    rfl
  · rw [if_neg h, decide_eq_false h]
    rfl

theorem exists_of_lastFlag {rs : List Region} {n : ℕ} {flag : UInt32}
    (h : lastFlag rs n = some flag) : ∃ r ∈ rs, r.Covers n ∧ r.flag = flag := by
  obtain ⟨r, hfind, rfl⟩ := Option.map_eq_some_iff.1 h
  have hcovers := List.find?_some hfind
  exact ⟨r, List.mem_reverse.1 (List.mem_of_find?_eq_some hfind), of_decide_eq_true hcovers, rfl⟩

theorem not_covers_of_lastFlag {rs : List Region} {n : ℕ} (h : lastFlag rs n = none) :
    ∀ r ∈ rs, ¬ r.Covers n := by
  intro r hr
  have hfind := List.find?_eq_none.1 (Option.map_eq_none_iff.1 h) r (List.mem_reverse.2 hr)
  exact fun hcovers => hfind (decide_eq_true hcovers)

/-- The entry of a page is that of the last call that covers it. -/
theorem foldl_remap (rs : List Region) (n : ℕ) :
    rs.foldl remap (fun _ => 0) n = ((lastFlag rs n).map (entry n)).getD 0 := by
  induction rs using List.reverseRecOn with
  | nil => rfl
  | append_singleton rs r ih =>
      rw [List.foldl_append, List.foldl_cons, List.foldl_nil, remap, lastFlag_append]
      split
      · rfl
      · exact ih

section

variable {leaf : ℕ → UInt32} {bs : Finset ℕ} {c : ℕ → UInt32} {s : PageTables}

theorem vpn_lt (va : UInt32) : Sv32.vpn1 va < 2 ^ 10 ∧ Sv32.vpn0 va < 2 ^ 10 := by
  have hlt := va.toNat_lt
  unfold Sv32.vpn1 Sv32.vpn0
  omega

/-- The table of the second level for an address. -/
theorem Built.decode_root (h : s.Built leaf bs c) {va : UInt32} (hva : Sv32.vpn1 va ∈ bs) :
    decode (s.memory (slot s.root.toNat (Sv32.vpn1 va))) =
        .pointer (leaf (Sv32.vpn1 va)).toNat ∧
      s.memory (slot (leaf (Sv32.vpn1 va)).toNat (Sv32.vpn0 va)) = c (va.toNat / 2 ^ 12) := by
  obtain ⟨hvpn1, hvpn0⟩ := vpn_lt va
  have haligned := h.leaf_aligned _ hva
  constructor
  · rw [h.root_entry _ hvpn1, if_pos hva,
      Sv32.decode_pointer (Sv32.toNat_shiftRight_or haligned (by decide))]
    refine congrArg Sv32.Pte.pointer ?_
    omega
  · rw [h.leaf_entry _ hva _ hvpn0]
    refine congrArg c ?_
    unfold Sv32.vpn1 Sv32.vpn0
    omega

/-- A page without an entry. -/
theorem Built.walk_of_zero (h : s.Built leaf bs c) {va : UInt32} (hc : c (va.toNat / 2 ^ 12) = 0) :
    walk s.memory s.root.toNat va = .error .invalid := by
  by_cases hva : Sv32.vpn1 va ∈ bs
  · obtain ⟨hroot, hleaf⟩ := h.decode_root hva
    exact Sv32.walk_of_no_leaf hroot (hleaf.trans hc)
  · refine Sv32.walk_of_zero ?_
    rw [h.root_entry _ (vpn_lt va).1, if_neg hva]

/-- A page that is mapped to itself. -/
theorem Built.walk_of_entry (h : s.Built leaf bs c) {va flag : UInt32}
    (hc : c (va.toNat / 2 ^ 12) = entry (va.toNat / 2 ^ 12) flag) (hflag : LeafFlags flag.toNat) :
    walk s.memory s.root.toNat va = .ok (va.toNat, flag.toNat) := by
  have hlt := va.toNat_lt
  have haddr : (UInt32.ofNat (va.toNat / 2 ^ 12 * 2 ^ 12)).toNat = va.toNat / 2 ^ 12 * 2 ^ 12 := by
    rw [UInt32.toNat_ofNat']
    omega
  have hentry : decode (entry (va.toNat / 2 ^ 12) flag) =
      .leaf ((va.toNat / 2 ^ 12 * 2 ^ 12) / 2 ^ 12) flag.toNat := by
    refine Sv32.decode_leaf ?_ hflag
    rw [entry, Sv32.toNat_shiftRight_or (by rw [haddr]; omega) hflag.lt, haddr]
  by_cases hva : Sv32.vpn1 va ∈ bs
  · obtain ⟨hroot, hleaf⟩ := h.decode_root hva
    rw [Sv32.walk_of_leaf hroot (by rw [hleaf, hc, hentry])]
    refine congrArg (fun pa => Except.ok (pa, flag.toNat)) ?_
    omega
  · -- The page would have no entry.
    have hzero : c (va.toNat / 2 ^ 12) = 0 := by
      refine h.no_entry _ ?_
      rw [Nat.div_div_eq_div_mul]
      exact hva
    rw [← hc, hzero] at hentry
    exact absurd hentry (by rw [Sv32.decode_zero]; exact fun h => Sv32.Pte.noConfusion h)

end

/-- The translation of all addresses by the tables that a sequence of calls has built. -/
theorem Built.walk_regions {leaf : ℕ → UInt32} {bs : Finset ℕ} {rs : List Region} {s : PageTables}
    (h : s.Built leaf bs (rs.foldl remap fun _ => 0)) (va : UInt32) :
    walk s.memory s.root.toNat va =
      match lastFlag rs (va.toNat / 2 ^ 12) with
      | some flag => .ok (va.toNat, flag.toNat)
      | none => .error .invalid := by
  have hentry := foldl_remap rs (va.toNat / 2 ^ 12)
  cases hlast : lastFlag rs (va.toNat / 2 ^ 12) with
  | none =>
      rw [hlast] at hentry
      exact h.walk_of_zero hentry
  | some flag =>
      rw [hlast] at hentry
      obtain ⟨r, -, -, rfl⟩ := exists_of_lastFlag hlast
      exact h.walk_of_entry hentry r.flags

/-- **The page tables are an identity map of exactly the regions of the calls.**  Every sequence of
calls on a fresh root comes to its end if there are frames for the tables; then every address of
32 bits is translated to itself, with the flag of the last call that covers its page, and there is a
fault if no call covers it. -/
theorem identity_mapped {s : PageTables} (hs : s.Fresh) (rs : List Region)
    (hframes : (blocks rs).card ≤ s.frames.length) :
    ∃ s', s.setupRegions rs = some s' ∧ s'.root = s.root ∧
      ∀ va : UInt32, walk s'.memory s'.root.toNat va =
        match lastFlag rs (va.toNat / 2 ^ 12) with
        | some flag => .ok (va.toNat, flag.toNat)
        | none => .error .invalid := by
  obtain ⟨leaf, s', hrun, hroot, hbuilt⟩ := hs.built.setupRegions rs (by
    rw [Finset.empty_union, Finset.card_empty, Nat.zero_add]
    exact hframes)
  exact ⟨s', hrun, hroot, hbuilt.walk_regions⟩

/-- Memory of zeros, with a root and two free frames. -/
def zeroTables : PageTables where
  memory _ := 0
  frames := [(1, 0x80005000), (2, 0x80006000)]
  root := 0x80004000
  pid _ := 0
  pidToPagetableBase _ := 0

theorem fresh_zeroTables : zeroTables.Fresh where
  root_aligned := by decide
  root_zero _ _ := rfl
  frames_ok := ⟨by decide, by decide⟩
  frames_ne := by decide

theorem leafFlags_userRwx : LeafFlags (0x1F : UInt32).toNat :=
  ⟨by decide, by decide, .inl (by decide), fun _ => by decide⟩

/-- Two regions that overlap at one page. -/
def overlapping : List Region :=
  [⟨1, 0x02000000, 16, osRwx, by decide, by decide, leafFlags_osRwx⟩,
   ⟨1, 0x0200F000, 2, 0x1F, by decide, by decide, leafFlags_userRwx⟩]

theorem identity_mapped_overlapping :
    ∃ s', zeroTables.setupRegions overlapping = some s' ∧ s'.root = zeroTables.root ∧
      ∀ va : UInt32, walk s'.memory s'.root.toNat va =
        match lastFlag overlapping (va.toNat / 2 ^ 12) with
        | some flag => .ok (va.toNat, flag.toNat)
        | none => .error .invalid :=
  identity_mapped fresh_zeroTables overlapping (by decide)

/-- The flag is stored with a logical or: **further bits change the page number, and a page that may
be written but not read is no leaf**. -/
theorem flag_not_mapped :
    zeroTables.Fresh ∧
      (zeroTables.setupIdentityRegion 1 0 1 0x40F).map (fun s => walk s.memory s.root.toNat 0) =
        some (.ok (0x1000, 0xF)) ∧
      (zeroTables.setupIdentityRegion 1 0 1 0x5).map (fun s => walk s.memory s.root.toNat 0) =
        some (.error .reserved) :=
  ⟨fresh_zeroTables, rfl, rfl⟩

/-! ### The mapping of the kernel -/

/-- The regions of `pagetable_identity_mapping`. -/
def kernelRegions (platform : Platform) (pid : ℤ) : List Region :=
  [⟨pid, 0x02000000, 16, osRwx, by decide, by decide, leafFlags_osRwx⟩,
   ⟨pid, uart0Base platform, 1, osRwx, by cases platform <;> decide, by cases platform <;> decide,
    leafFlags_osRwx⟩,
   ⟨pid, spiBase platform, 1, osRwx, by cases platform <;> decide, by cases platform <;> decide,
    leafFlags_osRwx⟩,
   ⟨pid, 0x20400000, 1024, osRwx, by decide, by decide, leafFlags_osRwx⟩,
   ⟨pid, 0x20800000, 1024, osRwx, by decide, by decide, leafFlags_osRwx⟩,
   ⟨pid, 0x80000000, 1024, osRwx, by decide, by decide, leafFlags_osRwx⟩] ++
  (List.finRange 8).map fun i =>
    ⟨pid, 0x08000000 + UInt32.ofNat i * 0x400000, 1024, osRwx, by revert i; decide,
      by revert i; decide, leafFlags_osRwx⟩

theorem flag_kernelRegions {platform : Platform} {pid : ℤ} :
    ∀ r ∈ kernelRegions platform pid, r.flag = osRwx := by
  simp [kernelRegions]

/-- The code maps these regions. -/
theorem pagetableIdentityMapping_eq (s : PageTables) (platform : Platform) (pid : ℤ) :
    s.pagetableIdentityMapping platform pid =
      (s.allocRoot pid).bind fun s => s.setupRegions (kernelRegions platform pid) := rfl

/-- They are in as many blocks as there are tables of the second level. -/
theorem card_blocks_kernelRegions {platform : Platform} (h : platform ≠ .arty) (pid : ℤ) :
    1 + (blocks (kernelRegions platform pid)).card = pageTables platform .pageTable := by
  have hpid : blocks (kernelRegions platform pid) = blocks (kernelRegions platform 0) := rfl
  rw [hpid]
  cases platform with
  | arty => exact absurd rfl h
  | qemuSifive => decide
  | qemuLatest => decide

/-- The root is fresh. -/
theorem fresh_allocRoot {s : PageTables} (hok : FramesOk s.frames) (hroom : s.frames ≠ [])
    (pid : ℤ) :
    ∃ s', s.allocRoot pid = some s' ∧ s'.Fresh ∧ s.frames.length = s'.frames.length + 1 := by
  obtain ⟨⟨frameId, root⟩, frames, hframes⟩ := List.exists_cons_of_ne_nil hroom
  rw [hframes] at hok ⊢
  obtain ⟨hnotMem, hnodup⟩ := List.nodup_cons.1 hok.1
  refine ⟨{ s with
      root := root
      frames := frames
      pid := update s.pid frameId pid
      memory := clear s.memory root
      pidToPagetableBase := update s.pidToPagetableBase pid root }, ?_, ?_, rfl⟩
  · rw [allocRoot, PageTables.mmuAlloc, hframes]
    rfl
  · exact
      { root_aligned := hok.2 _ List.mem_cons_self
        root_zero := fun v hv => clear_self hv
        frames_ok := ⟨hnodup, fun f hf => hok.2 f (List.mem_cons_of_mem _ hf)⟩
        frames_ne := fun f hf heq => hnotMem (List.mem_map.2 ⟨f, hf, heq⟩) }

/-- **The kernel's address space**: with as many frames as `pageTables` counts, all addresses of the
devices and the memory are mapped to themselves, and all others fault. -/
theorem pagetableIdentityMapping_walk {s : PageTables} (hok : FramesOk s.frames)
    {platform : Platform} (hplatform : platform ≠ .arty)
    (hroom : pageTables platform .pageTable ≤ s.frames.length) (pid : ℤ) :
    ∃ s', s.pagetableIdentityMapping platform pid = some s' ∧
      ∀ va : UInt32, walk s'.memory s'.root.toNat va =
        if ∃ r ∈ kernelRegions platform pid, r.Covers (va.toNat / 2 ^ 12) then
          .ok (va.toNat, osRwx.toNat)
        else .error .invalid := by
  rw [← card_blocks_kernelRegions hplatform pid] at hroom
  obtain ⟨s₁, halloc, hfresh, hlen⟩ := fresh_allocRoot hok
    (List.ne_nil_of_length_pos (by omega)) pid
  obtain ⟨leaf, s', hrun, -, hbuilt⟩ := hfresh.built.setupRegions (kernelRegions platform pid) (by
    rw [Finset.empty_union, Finset.card_empty]
    omega)
  refine ⟨s', ?_, fun va => ?_⟩
  · rw [pagetableIdentityMapping_eq, halloc]
    exact hrun
  · rw [hbuilt.walk_regions]
    cases hlast : lastFlag (kernelRegions platform pid) (va.toNat / 2 ^ 12) with
    | none =>
        rw [if_neg]
        rintro ⟨r, hr, hcovers⟩
        exact not_covers_of_lastFlag hlast r hr hcovers
    | some flag =>
        obtain ⟨r, hr, hcovers, rfl⟩ := exists_of_lastFlag hlast
        rw [if_pos ⟨r, hr, hcovers⟩, flag_kernelRegions r hr]

/-- Memory of zeros, with the first frames of QEMU. -/
def qemuTables : PageTables where
  memory _ := 0
  frames := (List.range 16).map fun i => (i, 0x80004000 + 4096 * UInt32.ofNat i)
  root := 0
  pid _ := 0
  pidToPagetableBase _ := 0

/-- The stack of the kernel is mapped to itself, and the address 0 is not mapped. -/
theorem pagetableIdentityMapping_walk_qemu :
    ∃ s', qemuTables.pagetableIdentityMapping .qemuLatest 0 = some s' ∧
      walk s'.memory s'.root.toNat 0x80003f80 = .ok (0x80003f80, 0xF) ∧
      walk s'.memory s'.root.toNat 0 = .error .invalid := by
  have hplatform : Platform.qemuLatest ≠ .arty := by decide
  obtain ⟨s', hrun, hwalk⟩ := pagetableIdentityMapping_walk (s := qemuTables)
    ⟨by decide, by decide⟩ hplatform (by decide) 0
  exact ⟨s', hrun, (hwalk _).trans (if_pos (by decide)), (hwalk _).trans (if_neg (by decide))⟩

end PageTables

end Egos
