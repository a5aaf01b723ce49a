/-
**Loading a program** (`library/elf/elf.c`).

`GPID_PROCESS` loads a program into frames of the new process.  It stores each page at the address
that `mmu_alloc` returned, block by block, and fetches each block by messages to the file server: in
the meantime other processes run, so that the address spaces are switched and frames are
swapped.  On the Arty board the address is that of a slot of the frame cache, and nothing keeps the
slot from being evicted.

Main definitions:

* `Egos.Loading`, `Egos.Loading.loadBlock`, `Egos.loadApp` — the loader;
* `Egos.VmAct` — what other processes do while a block is fetched;
* `Egos.Loading.InPlace` — the address that the loader stores to is still that of its frame.

Main results:

* `Egos.loadApp_intact` — **if no store of the loader finds its slot evicted, the program is loaded
  intact** and the frames of all other processes are as these left them;
* `Egos.loadApp_stackPage` — `load_app` stores the arguments in the first stack page, whatever
  happens while the blocks are fetched.
-/

import Egos.Spaces

set_option autoImplicit false

namespace Egos

open Function (update update_idem update_of_ne update_self)
open Paging (pagesStart Outside)

/-! ### Meanwhile -/

/-- What happens to the address spaces while the loader waits. -/
inductive VmAct
  | softTlbSwitch (pid : ℤ)
  /-- The process that is switched in writes to the page of one of its frames. -/
  | write (i : Fin 256) (f : Page → Page)

namespace VmAct

/-- Only live processes are switched to, and the new one is not. -/
def Live (pid : ℤ) : VmAct → Prop
  | .softTlbSwitch q => q ≠ 0 ∧ q ≠ pid
  | .write _ _ => True

/-- The effect of an act. -/
def run (m : Mmu) : VmAct → Mmu
  | .softTlbSwitch q => m.softTlbSwitch q
  | .write i f =>
      if m.Owned i m.currVmPid then
        { m with
          toPaging := m.toPaging.setPage (m.table i).pageNo (f (m.mem (m.table i).pageNo)) }
      else m

/-- What the act makes of the page in the frame `i` of the process `q`, given the process that is
switched in before. -/
def effect (q : ℤ) (i : Fin 256) : ℤ × Page → VmAct → ℤ × Page
  | (_, p), .softTlbSwitch r => (r, p)
  | (curr, p), .write j f => if j = i ∧ curr = q then (curr, f p) else (curr, p)

end VmAct

/-! ### The loader -/

/-- `struct elf32_program_header`, the fields that are used. -/
structure ProgramHeader where
  pOffset : ℕ
  pFilesz : ℕ
  deriving DecidableEq

/-- A reader: the number of a block, and then how the memory and the disk are when it has been
fetched, and the block. -/
abbrev Reader : Type := ℕ → Mmu → Mmu × Block

/-- The reader that asks for the blocks of a file by messages, while other processes run. -/
def exchange (meanwhile : ℕ → List VmAct) (file : ℕ → Block) : Reader :=
  fun n m => ((meanwhile n).foldl VmAct.run m, file n)

/-- While a block is fetched, nothing happens but that live processes run, and not the new one. -/
def Reader.Exchanges (pid : ℤ) (reader : Reader) : Prop :=
  ∀ n m, ∃ acts : List VmAct, (∀ b ∈ acts, b.Live pid) ∧ (reader n m).1 = acts.foldl VmAct.run m

/-- The local variables of `load_app`, with the MMU. -/
structure Loading where
  mmu : Mmu
  base : ℕ
  frameNo : Fin 256
  codeStart : ℕ

/-- A page with its block `n`, modulo 8, replaced. -/
def Page.setBlock (p : Page) (n : ℕ) (block : Block) : Page :=
  fun j => if j.val = n % 8 then block else p j

/-- A page with the bytes from `n` on zeroed. -/
def Page.zeroFrom (p : Page) (n : ℕ) : Page :=
  fun j k => if n ≤ 512 * j.val + k.val then 0 else p j k

/-- Byte `k` of a 32-bit number. -/
def byteOf (v k : ℕ) : UInt8 := UInt8.ofNat (v / 256 ^ k)

/-- The page with `argc`, `argv` and the arguments, which start at the bytes 0, 4 and 68. -/
def Page.setArgs (p : Page) (argc : ℕ) (argv : Option (ℕ → UInt8)) : Page :=
  fun j k =>
    let x := 512 * j.val + k.val
    if x < 4 then byteOf argc x
    else if x < 4 + 4 * argc then byteOf (0x80000000 + 4 + 4 * 16 + (x - 4) / 4 * 32) ((x - 4) % 4)
    else
      match argv with
      | some args => if 68 ≤ x ∧ x < 68 + 32 * argc then args (x - 68) else p j k
      | none => p j k

namespace Loading

/-- Store to the page at `base`. -/
def store (st : Loading) (f : Page → Page) : Loading :=
  { st with
    mmu := { st.mmu with toPaging := st.mmu.toPaging.setPage st.base (f (st.mmu.mem st.base)) } }

/-- `mmu_alloc` and `mmu_map`; if there is no frame left, the machine stops. -/
def newPage (pid : ℤ) (pageNo : ℕ) (st : Loading) : Option Loading :=
  match st.mmu.mmuAlloc with
  | .ok (frameNo, base, m) =>
      some { st with mmu := m.softTlbMap pid pageNo frameNo, base := base, frameNo := frameNo }
  | .error _ => none

/-- `mmu_alloc` and `mmu_map` of the next code page. -/
def newCodePage (pid : ℤ) (st : Loading) : Option Loading :=
  (st.newPage pid st.codeStart).map fun st => { st with codeStart := st.codeStart + 1 }

/-- The body of the first loop of `load_app`, up to the copy of the block by `reader`. -/
def fetch (pid : ℤ) (reader : Reader) (blockOffset : ℕ) (st : Loading) (n : ℕ) :
    Option (Loading × Block) :=
  (if 512 * n % 4096 = 0 then st.newCodePage pid else some st).map fun st =>
    let (m, block) := reader (blockOffset + n) st.mmu
    ({ st with mmu := m }, block)

/-- The body of the first loop of `load_app`, with `off = 512 * n`. -/
def loadBlock (pid : ℤ) (reader : Reader) (blockOffset : ℕ) (st : Loading) (n : ℕ) :
    Option Loading :=
  (st.fetch pid reader blockOffset n).map fun (st, block) =>
    st.store fun p => p.setBlock n block

/-- The body of the second loop of `load_app`. -/
def zeroPage (pid : ℤ) (st : Loading) : Option Loading :=
  (st.newCodePage pid).map fun st => st.store fun p => p.zeroFrom 0

/-- The variables of `load_app` at its start; `base` and `frame_no` are not initialised. -/
def start (m : Mmu) : Loading := { mmu := m, base := 0, frameNo := 0, codeStart := 0x8005 }

end Loading

/-- The number of blocks of the segment. -/
def ProgramHeader.nblocks (ph : ProgramHeader) : ℕ := (ph.pFilesz + 511) / 512

/-- `load_app` -/
def loadApp (pid : ℤ) (reader : Reader) (argc : ℕ) (argv : Option (ℕ → UInt8)) (ph : ProgramHeader)
    (m : Mmu) : Option Mmu := do
  let st := Loading.start m
  -- the text, rodata, data and bss sections
  let st ← (List.range ph.nblocks).foldlM (Loading.loadBlock pid reader (ph.pOffset / 512)) st
  let lastPageFilled := ph.pFilesz % 4096
  let st := if lastPageFilled ≠ 0 then st.store fun p => p.zeroFrom lastPageFilled else st
  let st ← (List.range (0x8008 - st.codeStart)).foldlM (fun st _ => st.zeroPage pid) st
  -- two pages for argc, argv and stack
  let st ← st.newPage pid 0x80000
  let st := st.store fun p => p.setArgs argc argv
  let st ← st.newPage pid 0x80001
  return st.mmu

/-! ### What the acts of other processes do -/

namespace VmAct

variable {m : Mmu} {own : Fin 256 → Page} {pid : ℤ}

/-- **One act**: it changes the frames of the process that is switched in, as that process wants. -/
theorem run_spec (h : m.Private own) {a : VmAct} (ha : a.Live pid) (hcurr : m.currVmPid ≠ pid) :
    (a.run m).table = m.table ∧ (a.run m).platform = m.platform ∧ (a.run m).currVmPid ≠ pid ∧
      ∃ own', (a.run m).Private own' ∧ ∀ i, (m.table i).use = true →
        ((a.run m).currVmPid, own' i) = effect (m.table i).pid i (m.currVmPid, own i) a := by
  cases a with
  | softTlbSwitch q =>
      obtain ⟨hm, hq, htable, hplat⟩ := h.softTlbSwitch ha.1
      rw [run]
      refine ⟨htable, hplat, ?_, own, hm, ?_⟩
      · rw [hq]
        exact ha.2
      · intro i _
        rw [hq]
        rfl
  | write j f =>
      rw [run]
      by_cases hj : m.Owned j m.currVmPid
      · rw [if_pos hj, h.live j hj]
        refine ⟨rfl, rfl, hcurr, _, h.write hj (f (own j)), ?_⟩
        intro i _
        by_cases hji : j = i
        · subst hji
          rw [effect, if_pos ⟨rfl, hj.2.symm⟩, update_self]
        · rw [effect, if_neg (fun hc => hji hc.1), update_of_ne (Ne.symm hji)]
      · rw [if_neg hj]
        refine ⟨rfl, rfl, hcurr, own, h, ?_⟩
        intro i hi
        rw [effect, if_neg]
        rintro ⟨rfl, hq⟩
        exact hj ⟨hi, hq.symm⟩

/-- **A list of acts.** -/
theorem foldl_run_spec (acts : List VmAct) : ∀ {m : Mmu} {own : Fin 256 → Page}, m.Private own →
    (∀ a ∈ acts, a.Live pid) → m.currVmPid ≠ pid →
    (acts.foldl run m).table = m.table ∧ (acts.foldl run m).platform = m.platform ∧
      (acts.foldl run m).currVmPid ≠ pid ∧ ∃ own', (acts.foldl run m).Private own' ∧
      ∀ i, (m.table i).use = true → ((acts.foldl run m).currVmPid, own' i) =
          acts.foldl (effect (m.table i).pid i) (m.currVmPid, own i) := by
  induction acts with
  | nil =>
      intro m own h _ hcurr
      exact ⟨rfl, rfl, hcurr, own, h, fun _ _ => rfl⟩
  | cons a acts ih =>
      intro m own h hlive hcurr
      obtain ⟨htable₁, hplat₁, hcurr₁, own₁, h₁, heffect₁⟩ :=
        run_spec h (hlive a List.mem_cons_self) hcurr
      obtain ⟨htable₂, hplat₂, hcurr₂, own₂, h₂, heffect₂⟩ :=
        ih h₁ (fun b hb => hlive b (List.mem_cons_of_mem a hb)) hcurr₁
      refine ⟨htable₂.trans htable₁, hplat₂.trans hplat₁, hcurr₂, own₂, h₂, ?_⟩
      intro i hi
      rw [List.foldl_cons, List.foldl_cons, heffect₂ i (by rw [htable₁]; exact hi), heffect₁ i hi,
        htable₁]

/-- A process that is never switched in keeps its page. -/
theorem foldl_effect_of_ne (acts : List VmAct) : ∀ {curr : ℤ} {i : Fin 256} {p : Page},
    (∀ a ∈ acts, a.Live pid) → curr ≠ pid → (acts.foldl (effect pid i) (curr, p)).2 = p := by
  induction acts with
  | nil =>
      intro curr i p _ _
      rfl
  | cons a acts ih =>
      intro curr i p hlive hcurr
      have hrest : ∀ b ∈ acts, b.Live pid := fun b hb => hlive b (List.mem_cons_of_mem a hb)
      rw [List.foldl_cons]
      cases a with
      | softTlbSwitch q => exact ih hrest (hlive (.softTlbSwitch q) List.mem_cons_self).2
      | write j f =>
          rw [effect, if_neg (fun hc => hcurr hc.2)]
          exact ih hrest hcurr

end VmAct

/-! ### The pages of the new process -/

/-- **The new process has the given pages**, and the other ones have theirs: the contents of each
frame are what the acts of its process have made of it. -/
structure Loaded (m₀ : Mmu) (own₀ : Fin 256 → Page) (pid : ℤ) (acts : List VmAct) (m : Mmu)
    (own : Fin 256 → Page) (pages : ℕ → Option Page) : Prop where
  pos : pid ≠ 0
  priv : m.Private own
  curr : m.currVmPid ≠ pid
  page : ∀ i, m.Owned i pid → pages (m.table i).pageNo = some (own i)
  mapped : ∀ a p, pages a = some p → ∃ i, m.Owned i pid ∧ (m.table i).pageNo = a
  other : ∀ i q, q ≠ 0 → q ≠ pid → m₀.Owned i q → m.table i = m₀.table i ∧
    (m.currVmPid, own i) = acts.foldl (VmAct.effect q i) (m₀.currVmPid, own₀ i)

/-- The frame that the loader fills is the one at a page of the new process. -/
structure Loading.Fills (st : Loading) (pid : ℤ) (a : ℕ) : Prop where
  owned : st.mmu.Owned st.frameNo pid
  page : (st.mmu.table st.frameNo).pageNo = a

/-- **The address is still that of the frame**: on the Arty board, its slot was not evicted. -/
def Loading.InPlace (st : Loading) : Prop :=
  st.mmu.platform = .arty → ∀ i : Fin 28, st.base = pagesStart + i →
    st.mmu.cacheSlots i = (st.frameNo : ℕ)

/-- The address is one of a slot, or on QEMU the one of the frame. -/
def Loading.SlotAddress (st : Loading) : Prop :=
  if st.mmu.platform = .arty then ∃ i : Fin 28, st.base = pagesStart + i
  else st.base = pagesStart + st.frameNo

theorem Loading.InPlace.frameAt {st : Loading} (h : st.InPlace) (hslot : st.SlotAddress) :
    st.mmu.FrameAt st.frameNo st.base := by
  unfold Loading.SlotAddress at hslot
  by_cases harty : st.mmu.platform = .arty
  · rw [if_pos harty] at hslot
    obtain ⟨i, hi⟩ := hslot
    exact (Paging.frameAt_arty harty).2 ⟨i, Paging.frameIn_eq_some.2 (h harty i hi), hi⟩
  · rw [if_neg harty] at hslot
    exact (Paging.frameAt_qemu harty).2 hslot

theorem Loading.slotAddress_of_frameAt {st : Loading} (h : st.mmu.FrameAt st.frameNo st.base) :
    st.SlotAddress := by
  unfold Loading.SlotAddress
  by_cases harty : st.mmu.platform = .arty
  · rw [if_pos harty]
    obtain ⟨i, -, hi⟩ := (Paging.frameAt_arty harty).1 h
    exact ⟨i, hi⟩
  · rw [if_neg harty]
    exact (Paging.frameAt_qemu harty).1 h

section Steps

variable {m₀ : Mmu} {own₀ own : Fin 256 → Page} {pid : ℤ} {acts : List VmAct} {st st' : Loading}
  {pages : ℕ → Option Page} {a : ℕ}

/-- **A new page** of the process, with any contents. -/
theorem Loaded.newPage (h : Loaded m₀ own₀ pid acts st.mmu own pages) (hpage : Mmu.UserPage a)
    (hnew : pages a = none) (hs : st.newPage pid a = some st') :
    ∃ own' p, Loaded m₀ own₀ pid acts st'.mmu own' (update pages a (some p)) ∧
      st'.Fills pid a ∧ st'.mmu.FrameAt st'.frameNo st'.base ∧ st'.codeStart = st.codeStart := by
  unfold Loading.newPage at hs
  cases halloc : st.mmu.mmuAlloc with
  | error e =>
      rw [halloc] at hs
      exact absurd hs (by simp)
  | ok r =>
      obtain ⟨i, base, m₁⟩ := r
      rw [halloc] at hs
      obtain rfl := Option.some.inj hs
      obtain ⟨h₁, hat, hzero⟩ := h.priv.mmuAlloc halloc
      obtain ⟨huse, -, htable, hcurr⟩ := Mmu.mmuAlloc_eq halloc
      have hfree : ∀ q, ¬ st.mmu.Owned i q := by
        intro q hq
        exact absurd (hq.1.symm.trans huse) (by simp)
      have hother : ∀ j, j ≠ i → m₁.table j = st.mmu.table j := by
        intro j hj
        rw [htable, update_of_ne hj]
      have hself : (m₁.softTlbMap pid a i).table i = ⟨true, pid, a⟩ := by
        change update _ _ _ _ = _
        rw [update_self, hzero.1]
      have hother' : ∀ j, j ≠ i → (m₁.softTlbMap pid a i).table j = st.mmu.table j := by
        intro j hj
        exact (update_of_ne hj _ _).trans (hother j hj)
      -- the process has no frame at this page yet
      have hfresh : ∀ j, m₁.Owned j pid → (m₁.table j).pageNo ≠ a := by
        intro j hj hja
        have hji : j ≠ i := by
          rintro rfl
          exact h.pos (hj.2.symm.trans hzero.2)
        rw [Mmu.Owned, hother j hji] at hj
        rw [hother j hji] at hja
        have := h.page j hj
        rw [hja, hnew] at this
        exact absurd this (by simp)
      refine ⟨_, m₁.mem base, ⟨h.pos, h₁.softTlbMap hzero ?_ hpage hfresh, ?_, ?_, ?_, ?_⟩,
        ⟨?_, ?_⟩, hat, rfl⟩
      · rw [hcurr]
        exact h.curr.symm
      · change m₁.currVmPid ≠ pid
        rw [hcurr]
        exact h.curr
      · intro j hj
        by_cases hji : j = i
        · rw [hji, hself, update_self, update_self]
        · rw [Mmu.Owned, hother' j hji] at hj
          have hja : (st.mmu.table j).pageNo ≠ a := by
            intro hja
            have := h.page j hj
            rw [hja, hnew] at this
            exact absurd this (by simp)
          rw [hother' j hji, update_of_ne hja, update_of_ne hji]
          exact h.page j hj
      · intro b p hp
        by_cases hb : b = a
        · exact ⟨i, by rw [Mmu.Owned, hself]; exact ⟨rfl, rfl⟩, by rw [hself, hb]⟩
        · rw [update_of_ne hb] at hp
          obtain ⟨j, hj, hjb⟩ := h.mapped b p hp
          have hji : j ≠ i := by
            rintro rfl
            exact hfree pid hj
          refine ⟨j, ?_, ?_⟩
          · rw [Mmu.Owned, hother' j hji]
            exact hj
          · rw [hother' j hji]
            exact hjb
      · intro j q hq0 hq hj
        obtain ⟨hsame, heffect⟩ := h.other j q hq0 hq hj
        have hji : j ≠ i := by
          rintro rfl
          refine hfree q ?_
          rw [Mmu.Owned, hsame]
          exact hj
        refine ⟨(hother' j hji).trans hsame, ?_⟩
        rw [update_of_ne hji, ← heffect]
        change (m₁.currVmPid, own j) = _
        rw [hcurr]
      · rw [Mmu.Owned, hself]
        exact ⟨rfl, rfl⟩
      · change ((m₁.softTlbMap pid a i).table i).pageNo = a
        rw [hself]

/-- **Other processes run**: the pages of the new process stay as they are. -/
theorem Loaded.meanwhile (h : Loaded m₀ own₀ pid acts st.mmu own pages) {more : List VmAct}
    (hlive : ∀ b ∈ more, b.Live pid) :
    (more.foldl VmAct.run st.mmu).table = st.mmu.table ∧
      (more.foldl VmAct.run st.mmu).platform = st.mmu.platform ∧
      ∃ own', Loaded m₀ own₀ pid (acts ++ more) (more.foldl VmAct.run st.mmu) own' pages := by
  obtain ⟨htable, hplat, hcurr, own', hpriv, heffect⟩ :=
    VmAct.foldl_run_spec more h.priv hlive h.curr
  have hown := Mmu.owned_congr htable
  refine ⟨htable, hplat, own', h.pos, hpriv, hcurr, ?_, ?_, ?_⟩
  · intro i hi
    have hi' := (hown i pid).1 hi
    have hkeep := congrArg Prod.snd (heffect i hi'.1)
    rw [hi'.2, VmAct.foldl_effect_of_ne more hlive h.curr] at hkeep
    rw [htable, h.page i hi', ← hkeep]
  · intro b p hp
    obtain ⟨i, hi, hb⟩ := h.mapped b p hp
    exact ⟨i, (hown i pid).2 hi, by rw [htable]; exact hb⟩
  · intro i q hq0 hq hi
    obtain ⟨hsame, heq⟩ := h.other i q hq0 hq hi
    refine ⟨by rw [htable]; exact hsame, ?_⟩
    have hi' : st.mmu.Owned i q := by
      rw [Mmu.Owned, hsame]
      exact hi
    rw [heffect i hi'.1, hi'.2, List.foldl_append, ← heq]

/-- **A store to the page** that the loader fills, if its address is still that of the frame. -/
theorem Loaded.store {p : Page} (h : Loaded m₀ own₀ pid acts st.mmu own pages)
    (hfills : st.Fills pid a) (hat : st.mmu.FrameAt st.frameNo st.base) (hp : pages a = some p)
    (f : Page → Page) :
    ∃ own', Loaded m₀ own₀ pid acts (st.store f).mmu own' (update pages a (some (f p))) ∧
      (st.store f).Fills pid a ∧ (st.store f).mmu.FrameAt st.frameNo st.base := by
  have hpid : (st.mmu.table st.frameNo).pid ≠ st.mmu.currVmPid := by
    rw [hfills.owned.2]
    exact h.curr.symm
  have hown : own st.frameNo = p := by
    have := h.page _ hfills.owned
    rw [hfills.page, hp] at this
    exact (Option.some.inj this).symm
  have hmem : st.mmu.mem st.base = p := by
    rw [← hown]
    exact h.priv.ok.hasFrame_unique hat.hasFrame (h.priv.stored _ hfills.owned.1 hpid)
  obtain ⟨hpriv, hat'⟩ := h.priv.load hat hpid (f (st.mmu.mem st.base))
  rw [hmem] at hpriv hat'
  have hstore : (st.store f).mmu =
      { st.mmu with toPaging := st.mmu.toPaging.setPage st.base (f p) } := by
    rw [Loading.store, hmem]
  rw [hstore]
  refine ⟨_, ⟨h.pos, hpriv, h.curr, ?_, ?_, ?_⟩, ⟨hfills.owned, hfills.page⟩, hat'⟩
  · intro i hi
    by_cases hif : i = st.frameNo
    · rw [hif, update_self]
      change update pages a _ (st.mmu.table st.frameNo).pageNo = _
      rw [hfills.page, update_self]
    · have hne : (st.mmu.table i).pageNo ≠ a := by
        rw [← hfills.page]
        intro he
        exact hif (h.priv.inj i st.frameNo pid h.pos hi hfills.owned he)
      change update pages a _ (st.mmu.table i).pageNo = _
      rw [update_of_ne hne, update_of_ne hif]
      exact h.page i hi
  · intro b q hq
    by_cases hb : b = a
    · exact ⟨st.frameNo, hfills.owned, hfills.page.trans hb.symm⟩
    · rw [update_of_ne hb] at hq
      exact h.mapped b q hq
  · intro i q hq0 hq hi
    obtain ⟨hsame, heq⟩ := h.other i q hq0 hq hi
    refine ⟨hsame, ?_⟩
    have hif : i ≠ st.frameNo := by
      rintro rfl
      refine hq (hi.2.symm.trans ?_)
      rw [← hsame]
      exact hfills.owned.2
    rw [update_of_ne hif]
    exact heq

/-- What `paging_read` returns for a frame of the new process. -/
theorem Loaded.pagingRead_eq {m : Mmu} (h : Loaded m₀ own₀ pid acts m own pages) {i : Fin 256}
    (hi : m.Owned i pid) {p : Page} (hp : pages (m.table i).pageNo = some p) :
    (m.toPaging.pagingRead i false).2.mem (m.toPaging.pagingRead i false).1 = p := by
  have hown : some (own i) = some p := (h.page i hi).symm.trans hp
  have hframe : m.HasFrame i (own i) := by
    refine h.priv.stored i hi.1 ?_
    rw [hi.2]
    exact h.curr.symm
  obtain ⟨hok, -, hat, hsame⟩ := h.priv.ok.pagingRead_spec i false
  rw [← Option.some.inj hown]
  exact hok.hasFrame_unique hat.hasFrame (hsame rfl _ hframe)

/-! ### The blocks of the file -/

variable {meanwhile : ℕ → List VmAct} {file : ℕ → Block} {blockOffset : ℕ}

/-- What happens while the first `n` blocks are fetched. -/
def interlude (meanwhile : ℕ → List VmAct) (blockOffset n : ℕ) : List VmAct :=
  (List.range n).flatMap fun k => meanwhile (blockOffset + k)

/-- **The invariant of the first loop of `load_app`**, after `n` blocks. -/
structure BlocksLoaded (m₀ : Mmu) (own₀ : Fin 256 → Page) (pid : ℤ) (meanwhile : ℕ → List VmAct)
    (file : ℕ → Block) (blockOffset n : ℕ) (st : Loading) (own : Fin 256 → Page)
    (pages : ℕ → Option Page) : Prop where
  loaded : Loaded m₀ own₀ pid (interlude meanwhile blockOffset n) st.mmu own pages
  start : st.codeStart = 0x8005 + (n + 7) / 8
  mapped : ∀ a, pages a ≠ none ↔ 0x8005 ≤ a ∧ a < st.codeStart
  block : ∀ c p, pages (0x8005 + c) = some p → ∀ j : Fin 8, 8 * c + j < n →
    p j = file (blockOffset + (8 * c + j))
  fills : 0 < n → st.Fills pid (0x8005 + (n - 1) / 8)
  inPlace : 0 < n → st.mmu.FrameAt st.frameNo st.base

/-- The slot of the page was not evicted while the block was fetched. -/
def Loading.Undisturbed (pid : ℤ) (reader : Reader) (blockOffset : ℕ) (st : Loading) (n : ℕ) :
    Prop :=
  ∀ st₁ block, st.fetch pid reader blockOffset n = some (st₁, block) → st₁.InPlace

theorem userPage_code {c : ℕ} (hc : c < 3) : Mmu.UserPage (0x8005 + c) := by
  refine ⟨by omega, Or.inl ?_⟩
  simp only [pagesStart]
  omega

theorem update_some_ne_none (pages : ℕ → Option Page) (b : ℕ) (p : Page) (a : ℕ) :
    update pages b (some p) a ≠ none ↔ a = b ∨ pages a ≠ none := by
  by_cases ha : a = b
  · subst ha
    simp
  · simp [ha]

/-- There is no page after the last one. -/
theorem eq_none_of_mapped {lo hi a : ℕ} (h : ∀ a, pages a ≠ none ↔ lo ≤ a ∧ a < hi)
    (ha : hi ≤ a) : pages a = none := by
  by_contra hne
  exact absurd ((h a).1 hne).2 (not_lt_of_ge ha)

/-- The page in which the block `n` goes is there, and the rest of the invariant is as before. -/
theorem BlocksLoaded.page {n : ℕ}
    (h : BlocksLoaded m₀ own₀ pid meanwhile file blockOffset n st own pages) (hn : n < 24)
    (hs : (if 512 * n % 4096 = 0 then st.newCodePage pid else some st) = some st') :
    ∃ own' pages', Loaded m₀ own₀ pid (interlude meanwhile blockOffset n) st'.mmu own' pages' ∧
      st'.codeStart = 0x8005 + (n + 8) / 8 ∧
      (∀ a, pages' a ≠ none ↔ 0x8005 ≤ a ∧ a < st'.codeStart) ∧
      (∀ c p, pages' (0x8005 + c) = some p → ∀ j : Fin 8, 8 * c + j < n →
        p j = file (blockOffset + (8 * c + j))) ∧
      st'.Fills pid (0x8005 + n / 8) ∧ st'.mmu.FrameAt st'.frameNo st'.base := by
  by_cases hmod : 512 * n % 4096 = 0
  · rw [if_pos hmod, Loading.newCodePage] at hs
    obtain ⟨st₁, h₁, rfl⟩ := Option.map_eq_some_iff.1 hs
    have hstart : st.codeStart = 0x8005 + n / 8 := by
      rw [h.start]
      omega
    have hnew := eq_none_of_mapped h.mapped le_rfl
    have hpage : Mmu.UserPage st.codeStart := by
      rw [hstart]
      exact userPage_code (by omega)
    obtain ⟨own', p, hloaded, hfills, hat, hcode⟩ := h.loaded.newPage hpage hnew h₁
    refine ⟨own', _, hloaded, ?_, ?_, ?_, ?_, hat⟩
    · change st₁.codeStart + 1 = _
      rw [hcode, hstart]
      omega
    · intro a
      change _ ↔ 0x8005 ≤ a ∧ a < st₁.codeStart + 1
      rw [hcode, update_some_ne_none, h.mapped a]
      omega
    · intro c q hq j hj
      have hne : 0x8005 + c ≠ st.codeStart := by
        rw [hstart]
        omega
      rw [update_of_ne hne] at hq
      exact h.block c q hq j hj
    · rw [← hstart]
      exact ⟨hfills.owned, hfills.page⟩
  · rw [if_neg hmod] at hs
    obtain rfl := Option.some.inj hs
    have hpos : 0 < n := by omega
    refine ⟨own, pages, h.loaded, ?_, h.mapped, h.block, ?_, h.inPlace hpos⟩
    · rw [h.start]
      omega
    · have hfills := h.fills hpos
      rwa [show (n - 1) / 8 = n / 8 by omega] at hfills

/-- **One turn of the first loop**, if the slot was not evicted. -/
theorem BlocksLoaded.loadBlock {n : ℕ}
    (h : BlocksLoaded m₀ own₀ pid meanwhile file blockOffset n st own pages) (hn : n < 24)
    (hlive : ∀ b ∈ meanwhile (blockOffset + n), b.Live pid)
    (hplace : st.Undisturbed pid (exchange meanwhile file) blockOffset n)
    (hs : st.loadBlock pid (exchange meanwhile file) blockOffset n = some st') :
    ∃ own' pages', BlocksLoaded m₀ own₀ pid meanwhile file blockOffset (n + 1) st' own' pages' := by
  obtain ⟨⟨st₁, block⟩, h₁, rfl⟩ := Option.map_eq_some_iff.1 hs
  have hin := hplace st₁ block h₁
  obtain ⟨st₀, h₀, heq⟩ := Option.map_eq_some_iff.1 h₁
  obtain ⟨rfl, rfl⟩ := Prod.mk.inj heq
  obtain ⟨own', pages', hloaded, hstart, hmapped, hblock, hfills, hat⟩ := h.page hn h₀
  obtain ⟨htable, hplat, own₁, hloaded₁⟩ := hloaded.meanwhile hlive
  -- the loader still fills the frame of the page, and its address is in place
  have hslot : Loading.SlotAddress
      { st₀ with mmu := (meanwhile (blockOffset + n)).foldl VmAct.run st₀.mmu } := by
    have := Loading.slotAddress_of_frameAt hat
    unfold Loading.SlotAddress at this ⊢
    rw [hplat]
    exact this
  have hfills₁ : Loading.Fills
      { st₀ with mmu := (meanwhile (blockOffset + n)).foldl VmAct.run st₀.mmu } pid
        (0x8005 + n / 8) := by
    refine ⟨(Mmu.owned_congr htable _ _).2 hfills.owned, ?_⟩
    rw [htable]
    exact hfills.page
  obtain ⟨p, hp⟩ : ∃ p, pages' (0x8005 + n / 8) = some p := by
    refine Option.ne_none_iff_exists'.1 ((hmapped _).2 ?_)
    omega
  obtain ⟨own₂, hloaded₂, hfills₂, hat₂⟩ := hloaded₁.store hfills₁ (hin.frameAt hslot) hp
    fun p => p.setBlock n (file (blockOffset + n))
  have hacts : interlude meanwhile blockOffset (n + 1) =
      interlude meanwhile blockOffset n ++ meanwhile (blockOffset + n) := by
    rw [interlude, List.range_succ, List.flatMap_append, List.flatMap_singleton, interlude]
  rw [← hacts] at hloaded₂
  refine ⟨own₂, _, ⟨hloaded₂, hstart, ?_, ?_, ?_, ?_⟩⟩
  · intro a
    change _ ↔ _ ∧ a < st₀.codeStart
    rw [update_some_ne_none, hmapped a]
    omega
  · intro c q hq j hj
    by_cases hc : c = n / 8
    · rw [hc, update_self] at hq
      rw [← Option.some.inj hq, Page.setBlock]
      by_cases hjn : 8 * c + j.val = n
      · rw [if_pos (by omega), hjn]
      · rw [if_neg (by omega)]
        exact hblock c p (hc ▸ hp) j (by omega)
    · rw [update_of_ne (by omega)] at hq
      have hmem := (hmapped (0x8005 + c)).1 (by rw [hq]; simp)
      exact hblock c q hq j (by omega)
  · intro _
    exact hfills₂
  · intro _
    exact hat₂

/-- **The first loop**, if no slot was evicted. -/
theorem BlocksLoaded.loop (k : ℕ) : ∀ {n : ℕ} {st st' : Loading} {own : Fin 256 → Page}
    {pages : ℕ → Option Page}, BlocksLoaded m₀ own₀ pid meanwhile file blockOffset n st own pages →
    n + k ≤ 24 → (∀ n, ∀ b ∈ meanwhile n, b.Live pid) →
    Runs.EveryStep (Loading.loadBlock pid (exchange meanwhile file) blockOffset)
      (fun st n _ => st.Undisturbed pid (exchange meanwhile file) blockOffset n) st
      (List.range' n k) →
    (List.range' n k).foldlM (Loading.loadBlock pid (exchange meanwhile file) blockOffset) st =
      some st' →
    ∃ own' pages', BlocksLoaded m₀ own₀ pid meanwhile file blockOffset (n + k) st' own' pages' := by
  induction k with
  | zero =>
      intro n st st' own pages h _ _ _ hs
      obtain rfl := Option.some.inj hs
      exact ⟨own, pages, h⟩
  | succ k ih =>
      intro n st st' own pages h hn hlive hplace hs
      rw [List.range'_succ] at hplace hs
      rw [List.foldlM_cons] at hs
      obtain ⟨st₁, h₁, hrest⟩ := Option.bind_eq_some_iff.1 hs
      obtain ⟨hpl, hplace'⟩ := hplace st₁ h₁
      obtain ⟨own₁, pages₁, hload⟩ := h.loadBlock (by omega) (hlive _) hpl h₁
      rw [show n + (k + 1) = n + 1 + k by omega]
      exact ih hload (by omega) hlive hplace' hrest

/-! ### The rest of the program -/

/-- The code page `c` of a program: the bytes of the file, and then zeros. -/
def filePage (file : ℕ → Block) (blockOffset filesz c : ℕ) : Page :=
  fun j k => if 4096 * c + 512 * j.val + k.val < filesz then
    file (blockOffset + (8 * c + j)) k else 0

/-- **The first `c` code pages are loaded.** -/
structure CodeLoaded (m₀ : Mmu) (own₀ : Fin 256 → Page) (pid : ℤ) (acts : List VmAct)
    (file : ℕ → Block) (blockOffset filesz c : ℕ) (st : Loading) (own : Fin 256 → Page)
    (pages : ℕ → Option Page) : Prop where
  loaded : Loaded m₀ own₀ pid acts st.mmu own pages
  start : st.codeStart = 0x8005 + c
  mapped : ∀ a, pages a ≠ none ↔ 0x8005 ≤ a ∧ a < 0x8005 + c
  code : ∀ d < c, pages (0x8005 + d) = some (filePage file blockOffset filesz d)

variable {filesz : ℕ}

/-- The end of the last page is zeroed. -/
theorem BlocksLoaded.zeroTail
    (h : BlocksLoaded m₀ own₀ pid meanwhile file blockOffset ((filesz + 511) / 512) st own pages)
    (hst : st' = if filesz % 4096 ≠ 0 then st.store fun p => p.zeroFrom (filesz % 4096) else st) :
    ∃ own' pages', CodeLoaded m₀ own₀ pid (interlude meanwhile blockOffset ((filesz + 511) / 512))
      file blockOffset filesz ((filesz + 4095) / 4096) st' own' pages' := by
  have hpages : ∀ c < (filesz + 4095) / 4096, ∃ p, pages (0x8005 + c) = some p := by
    intro c hc
    refine Option.ne_none_iff_exists'.1 ((h.mapped _).2 ?_)
    rw [h.start]
    omega
  have hmapped : ∀ a, pages a ≠ none ↔ 0x8005 ≤ a ∧ a < 0x8005 + (filesz + 4095) / 4096 := by
    intro a
    rw [h.mapped a, h.start]
    omega
  -- a page that the file fills
  have hfull : ∀ c p, pages (0x8005 + c) = some p → 4096 * (c + 1) ≤ filesz →
      p = filePage file blockOffset filesz c := by
    intro c p hp hc
    funext j k
    have hj := j.isLt
    have hk := k.isLt
    rw [filePage, if_pos (by omega), h.block c p hp j (by omega)]
  by_cases hfilled : filesz % 4096 = 0
  · rw [if_neg (by simpa using hfilled)] at hst
    subst hst
    refine ⟨own, pages, h.loaded, ?_, hmapped, ?_⟩
    · rw [h.start]
      omega
    · intro c hc
      obtain ⟨p, hp⟩ := hpages c hc
      rw [hp, hfull c p hp (by omega)]
  · rw [if_pos hfilled] at hst
    subst hst
    have hpos : 0 < (filesz + 511) / 512 := by omega
    obtain ⟨p, hp⟩ := hpages (filesz / 4096) (by omega)
    have hlast : 0x8005 + ((filesz + 511) / 512 - 1) / 8 = 0x8005 + filesz / 4096 := by omega
    have hfills := h.fills hpos
    rw [hlast] at hfills
    obtain ⟨own', hloaded, -, -⟩ := h.loaded.store hfills (h.inPlace hpos) hp
      fun p => p.zeroFrom (filesz % 4096)
    refine ⟨own', _, hloaded, ?_, ?_, ?_⟩
    · change st.codeStart = _
      rw [h.start]
      omega
    · intro a
      rw [update_some_ne_none, hmapped a]
      omega
    · intro c hc
      by_cases hcl : c = filesz / 4096
      · rw [hcl, update_self]
        congr 1
        funext j k
        have hj := j.isLt
        have hk := k.isLt
        rw [Page.zeroFrom, filePage]
        by_cases hx : filesz % 4096 ≤ 512 * j.val + k.val
        · rw [if_pos hx, if_neg (by omega)]
        · rw [if_neg hx, if_pos (by omega), h.block _ p hp j (by omega)]
      · rw [update_of_ne (by omega)]
        obtain ⟨q, hq⟩ := hpages c hc
        rw [hq, hfull c q hq (by omega)]

/-- **One turn of the second loop**: a page of zeros after the end of the file. -/
theorem CodeLoaded.zeroPage {c : ℕ}
    (h : CodeLoaded m₀ own₀ pid acts file blockOffset filesz c st own pages) (hc : c < 3)
    (hend : filesz ≤ 4096 * c) (hs : st.zeroPage pid = some st') :
    ∃ own' pages',
      CodeLoaded m₀ own₀ pid acts file blockOffset filesz (c + 1) st' own' pages' := by
  obtain ⟨st₁, h₁, rfl⟩ := Option.map_eq_some_iff.1 hs
  obtain ⟨st₀, h₀, rfl⟩ := Option.map_eq_some_iff.1 h₁
  have hnew : pages st.codeStart = none := eq_none_of_mapped h.mapped h.start.ge
  have hpage : Mmu.UserPage st.codeStart := by
    rw [h.start]
    exact userPage_code hc
  obtain ⟨own₁, p, hloaded₁, hfills, hat, hcode⟩ := h.loaded.newPage hpage hnew h₀
  obtain ⟨own₂, hloaded₂, -, -⟩ := hloaded₁.store hfills hat (update_self _ _ _)
    fun p => p.zeroFrom 0
  rw [update_idem] at hloaded₂
  refine ⟨own₂, _, hloaded₂, ?_, ?_, ?_⟩
  · change st₀.codeStart + 1 = _
    rw [hcode, h.start]
    omega
  · intro a
    rw [update_some_ne_none, h.mapped a, h.start]
    omega
  · intro d hd
    by_cases hdc : d = c
    · rw [hdc, ← h.start, update_self]
      congr 1
      funext j k
      have hj := j.isLt
      have hk := k.isLt
      rw [Page.zeroFrom, if_pos (by omega), filePage, if_neg (by omega)]
    · have hne : 0x8005 + d ≠ st.codeStart := by
        rw [h.start]
        omega
      rw [update_of_ne hne]
      exact h.code d (by omega)

/-- **The second loop.** -/
theorem CodeLoaded.loop (l : List ℕ) : ∀ {c : ℕ} {st st' : Loading} {own : Fin 256 → Page}
    {pages : ℕ → Option Page},
    CodeLoaded m₀ own₀ pid acts file blockOffset filesz c st own pages → c + l.length ≤ 3 →
    filesz ≤ 4096 * c → l.foldlM (fun st _ => st.zeroPage pid) st = some st' →
    ∃ own' pages', CodeLoaded m₀ own₀ pid acts file blockOffset filesz (c + l.length) st' own'
      pages' := by
  induction l with
  | nil =>
      intro c st st' own pages h _ _ hs
      obtain rfl := Option.some.inj hs
      exact ⟨own, pages, h⟩
  | cons n l ih =>
      intro c st st' own pages h hc hend hs
      rw [List.length_cons] at hc ⊢
      rw [List.foldlM_cons] at hs
      obtain ⟨st₁, h₁, hrest⟩ := Option.bind_eq_some_iff.1 hs
      obtain ⟨own₁, pages₁, hload⟩ := h.zeroPage (by omega) hend h₁
      rw [show c + (l.length + 1) = c + 1 + l.length by omega]
      exact ih hload (by omega) (by omega) hrest

/-- **The two pages of the stack**, with the arguments at the start of the first one. -/
theorem Loaded.stackPages {st'' : Loading} {argc : ℕ} {argv : Option (ℕ → UInt8)}
    (h : Loaded m₀ own₀ pid acts st.mmu own pages) (hnew : ∀ a, 0x80000 ≤ a → pages a = none)
    (hs : st.newPage pid 0x80000 = some st')
    (hs' : (st'.store fun p => p.setArgs argc argv).newPage pid 0x80001 = some st'') :
    ∃ own' p q, Loaded m₀ own₀ pid acts st''.mmu own' (update
      (update pages 0x80000 (some (Page.setArgs p argc argv))) 0x80001 (some q)) := by
  obtain ⟨own₁, p, hl₁, hfills, hat, -⟩ := h.newPage ⟨by omega, Or.inl (by decide)⟩
    (hnew 0x80000 le_rfl) hs
  obtain ⟨own₂, hl₂, -, -⟩ := hl₁.store hfills hat (update_self _ _ _)
    fun p => p.setArgs argc argv
  rw [update_idem] at hl₂
  have hnone : update pages 0x80000 (some (p.setArgs argc argv)) 0x80001 = none := by
    rw [update_of_ne (by decide)]
    exact hnew 0x80001 (by omega)
  obtain ⟨own₃, q, hl₃, -, -, -⟩ := hl₂.newPage ⟨by omega, Or.inl (by decide)⟩ hnone hs'
  exact ⟨own₃, p, q, hl₃⟩

end Steps

/-- **No store of the loader finds its slot evicted.** -/
def LoadsInPlace (pid : ℤ) (reader : Reader) (ph : ProgramHeader) (m : Mmu) : Prop :=
  Runs.EveryStep (Loading.loadBlock pid reader (ph.pOffset / 512))
    (fun st n _ => st.Undisturbed pid reader (ph.pOffset / 512) n) (Loading.start m)
    (List.range ph.nblocks)

/-- The new process has no pages when `load_app` starts. -/
theorem Loading.start_blocksLoaded {m : Mmu} {own : Fin 256 → Page} {pid : ℤ} (h : m.Private own)
    (hpid : pid ≠ 0) (hcurr : m.currVmPid ≠ pid) (hnew : ∀ i, ¬ m.Owned i pid)
    (meanwhile : ℕ → List VmAct) (file : ℕ → Block) (blockOffset : ℕ) :
    BlocksLoaded m own pid meanwhile file blockOffset 0 (Loading.start m) own fun _ => none := by
  refine ⟨⟨hpid, h, hcurr, ?_, ?_, ?_⟩, rfl, ?_, ?_, ?_, ?_⟩
  · intro i hi
    exact absurd hi (hnew i)
  · intro a p hp
    exact absurd hp (by simp)
  · intro i q _ _ _
    exact ⟨rfl, rfl⟩
  · intro a
    change (none : Option Page) ≠ none ↔ 0x8005 ≤ a ∧ a < 0x8005
    simp only [ne_eq, not_true_eq_false, false_iff]
    omega
  · intro c p hp
    exact absurd hp (by simp)
  · intro hpos
    exact absurd hpos (by omega)
  · intro hpos
    exact absurd hpos (by omega)

/-- The pages that `load_app` makes for the new process. -/
theorem loadApp_loaded {m m' : Mmu} {own : Fin 256 → Page} {pid : ℤ} {meanwhile : ℕ → List VmAct}
    {file : ℕ → Block} {argc : ℕ} {argv : Option (ℕ → UInt8)} {ph : ProgramHeader}
    (h : m.Private own) (hpid : pid ≠ 0) (hcurr : m.currVmPid ≠ pid)
    (hnew : ∀ i, ¬ m.Owned i pid) (hsize : ph.pFilesz ≤ 0x3000)
    (hlive : ∀ n, ∀ b ∈ meanwhile n, b.Live pid)
    (hplace : LoadsInPlace pid (exchange meanwhile file) ph m)
    (hload : loadApp pid (exchange meanwhile file) argc argv ph m = some m') :
    ∃ own' pages,
      Loaded m own pid (interlude meanwhile (ph.pOffset / 512) ph.nblocks) m' own' pages ∧
      ∀ c < 3, pages (0x8005 + c) = some (filePage file (ph.pOffset / 512) ph.pFilesz c) := by
  have hblocks : ph.nblocks = (ph.pFilesz + 511) / 512 := rfl
  obtain ⟨st₁, h₁, hload⟩ := Option.bind_eq_some_iff.1 hload
  obtain ⟨st₂, h₂, hload⟩ := Option.bind_eq_some_iff.1 hload
  obtain ⟨st₃, h₃, hload⟩ := Option.bind_eq_some_iff.1 hload
  obtain ⟨st₄, h₄, hload⟩ := Option.bind_eq_some_iff.1 hload
  obtain rfl := Option.some.inj hload
  -- the blocks of the file
  rw [List.range_eq_range'] at h₁
  rw [LoadsInPlace, List.range_eq_range'] at hplace
  obtain ⟨own₁, pages₁, hl₁⟩ := BlocksLoaded.loop ph.nblocks
    (Loading.start_blocksLoaded h hpid hcurr hnew meanwhile file (ph.pOffset / 512)) (by omega)
    hlive hplace h₁
  rw [Nat.zero_add, hblocks] at hl₁
  -- the zeros after its end
  obtain ⟨own₂, pages₂, hl₂⟩ := hl₁.zeroTail rfl
  rw [hl₂.start] at h₂
  obtain ⟨own₃, pages₃, hl₃⟩ :=
    CodeLoaded.loop _ hl₂ (by rw [List.length_range]; omega) (by omega) h₂
  rw [List.length_range, show (ph.pFilesz + 4095) / 4096 +
    (0x8008 - (0x8005 + (ph.pFilesz + 4095) / 4096)) = 3 by omega] at hl₃
  -- the two pages of the stack
  have hstack : ∀ a, 0x80000 ≤ a → pages₃ a = none := by
    intro a ha
    exact eq_none_of_mapped hl₃.mapped (by omega)
  obtain ⟨own₄, p, q, hl₄⟩ := hl₃.loaded.stackPages hstack h₃ h₄
  refine ⟨own₄, _, hl₄, ?_⟩
  intro c hc
  rw [update_of_ne (by omega), update_of_ne (by omega)]
  exact hl₃.code c hc

/-- **A program is loaded intact** while other processes run, if no store of the loader finds its
slot evicted.  When `load_app` returns, `paging_read` finds the bytes of the file and then zeros in
the frame of each code page, and the frames of every other process are what that process has made of
them. -/
theorem loadApp_intact {p : Paging} {ops : List Spaces.Op} {s : Spaces} {m' : Mmu} {pid : ℤ}
    {meanwhile : ℕ → List VmAct} {file : ℕ → Block} {argc : ℕ} {argv : Option (ℕ → UInt8)}
    {ph : ProgramHeader} (hrun : (Spaces.start p).run ops = some s) (hpid : pid ≠ 0)
    (hcurr : s.mmu.currVmPid ≠ pid) (hnew : ∀ i, ¬ s.mmu.Owned i pid) (hsize : ph.pFilesz ≤ 0x3000)
    (hlive : ∀ n, ∀ b ∈ meanwhile n, b.Live pid)
    (hplace : LoadsInPlace pid (exchange meanwhile file) ph s.mmu)
    (hload : loadApp pid (exchange meanwhile file) argc argv ph s.mmu = some m') :
    (∀ c < 3, ∃ i, m'.Owned i pid ∧ (m'.table i).pageNo = 0x8005 + c ∧
      (m'.toPaging.pagingRead i false).2.mem (m'.toPaging.pagingRead i false).1 =
        filePage file (ph.pOffset / 512) ph.pFilesz c) ∧
    (∀ i q, q ≠ 0 → q ≠ pid → s.mmu.Owned i q → m'.table i = s.mmu.table i ∧
      ∃ page, (m'.currVmPid, page) = (interlude meanwhile (ph.pOffset / 512) ph.nblocks).foldl
          (VmAct.effect q i) (s.mmu.currVmPid, s.own i) ∧
        if q = m'.currVmPid then m'.mem (m'.table i).pageNo = page else m'.HasFrame i page) := by
  have hpriv := ((Spaces.start_ok p).run hrun).mmu
  obtain ⟨own', pages, hl, hcode⟩ := loadApp_loaded hpriv hpid hcurr hnew hsize hlive hplace hload
  constructor
  · intro c hc
    obtain ⟨i, hi, hpage⟩ := hl.mapped _ _ (hcode c hc)
    exact ⟨i, hi, hpage, hl.pagingRead_eq hi (by rw [hpage]; exact hcode c hc)⟩
  · intro i q hq0 hq hi
    obtain ⟨hsame, heffect⟩ := hl.other i q hq0 hq hi
    have hi' : m'.Owned i q := by
      rw [Mmu.Owned, hsame]
      exact hi
    refine ⟨hsame, own' i, heffect, ?_⟩
    by_cases hqc : q = m'.currVmPid
    · rw [if_pos hqc]
      exact hl.priv.live i (hqc ▸ hi')
    · rw [if_neg hqc]
      refine hl.priv.stored i hi'.1 ?_
      rw [hi'.2]
      exact hqc

instance (st : Loading) : Decidable st.InPlace := inferInstanceAs (Decidable (_ → _))

instance (pid : ℤ) (reader : Reader) (blockOffset : ℕ) (st : Loading) (n : ℕ) :
    Decidable (st.Undisturbed pid reader blockOffset n) :=
  match h : st.fetch pid reader blockOffset n with
  | none => isTrue fun _ _ h₁ => absurd (h.symm.trans h₁) (Option.some_ne_none _).symm
  | some (st₁, block) => decidable_of_iff st₁.InPlace
      ⟨fun hin _ _ h₁ => (Prod.mk.inj (Option.some.inj (h.symm.trans h₁))).1 ▸ hin,
        fun hall => hall st₁ block h⟩

instance (pid : ℤ) (reader : Reader) (ph : ProgramHeader) (m : Mmu) :
    Decidable (LoadsInPlace pid reader ph m) :=
  inferInstanceAs (Decidable (Runs.EveryStep _ _ _ _))

/-- Two processes are loaded, and the first one runs. -/
def twoProcesses : List Spaces.Op :=
  [.mmuAlloc, .softTlbMap 1 0x8005 0, .mmuAlloc, .softTlbMap 2 0x8005 1, .softTlbSwitch 1]

/-- While a block is fetched, another process runs. -/
def busy (pid : ℤ) : ℕ → List VmAct := fun _ => [.softTlbSwitch pid, .softTlbSwitch 1]

/-- A file in which every byte is 7. -/
def sevens : ℕ → Block := fun _ _ => 7

/-- A program of one block. -/
def smallProgram : ProgramHeader := ⟨0, 512⟩

set_option maxRecDepth 100000 in
/-- With two processes, nothing has to be evicted. -/
theorem loadApp_intact_twoProcesses :
    ∃ s m', (Spaces.start (Paging.board .arty fun _ => 0)).run twoProcesses = some s ∧
      LoadsInPlace 3 (exchange (busy 2) sevens) smallProgram s.mmu ∧
      loadApp 3 (exchange (busy 2) sevens) 0 none smallProgram s.mmu = some m' ∧
      ∀ c < 3, ∃ i, m'.Owned i 3 ∧ (m'.table i).pageNo = 0x8005 + c ∧
        (m'.toPaging.pagingRead i false).2.mem (m'.toPaging.pagingRead i false).1 =
          filePage sevens 0 512 c := by
  have hrun : ((Spaces.start (Paging.board .arty fun _ => 0)).run twoProcesses).any (fun s =>
      s.mmu.currVmPid ≠ 3 ∧ (∀ i, ¬ s.mmu.Owned i 3) ∧
        LoadsInPlace 3 (exchange (busy 2) sevens) smallProgram s.mmu ∧
        (loadApp 3 (exchange (busy 2) sevens) 0 none smallProgram s.mmu).isSome = true) = true := by
    decide +kernel
  obtain ⟨s, hs, h⟩ := (Option.any_eq_true _ _).1 hrun
  obtain ⟨hcurr, hnew, hplace, hload⟩ := of_decide_eq_true h
  obtain ⟨m', hm'⟩ := Option.isSome_iff_exists.1 hload
  have hlive : ∀ n, ∀ b ∈ busy 2 n, b.Live 3 := by
    intro n b hb
    simp only [busy, List.mem_cons, List.not_mem_nil, or_false] at hb
    rcases hb with rfl | rfl
    · exact ⟨by decide, by decide⟩
    · exact ⟨by decide, by decide⟩
  exact ⟨s, m', hs, hplace, hm',
    (loadApp_intact hs (by decide) hcurr hnew (by decide) hlive hplace hm').1⟩

/-- The pages of a process are allocated and mapped. -/
def spawnPages (pid : ℤ) (frame : ℕ) : List Mmu.Call :=
  [.mmuAlloc, .softTlbMap pid 0x8005 (Fin.ofNat 256 frame),
    .mmuAlloc, .softTlbMap pid 0x8006 (Fin.ofNat 256 (frame + 1)),
    .mmuAlloc, .softTlbMap pid 0x8007 (Fin.ofNat 256 (frame + 2)),
    .mmuAlloc, .softTlbMap pid 0x80000 (Fin.ofNat 256 (frame + 3)),
    .mmuAlloc, .softTlbMap pid 0x80001 (Fin.ofNat 256 (frame + 4))]

/-- Six processes are loaded, and the first one runs. -/
def sixProcesses : List Mmu.Call :=
  spawnPages 1 0 ++ spawnPages 2 5 ++ spawnPages 3 10 ++ spawnPages 4 15 ++ spawnPages 5 20 ++
    spawnPages 6 25 ++ [.softTlbSwitch 1]

set_option maxRecDepth 100000 in
/-- With six processes there are more frames than slots, and the slot of the new process may be
evicted before the block arrives: then the block is stored to a frame of another process, and the
new program does not start with it. -/
theorem loadApp_damaged :
    ∃ m m', (Mmu.init (Paging.board .arty fun _ => 0)).calls sixProcesses = some m ∧
      loadApp 7 (exchange (busy 6) sevens) 0 none smallProgram m = some m' ∧
      m'.Owned 30 7 ∧ (m'.table 30).pageNo = 0x8005 ∧
      (m'.toPaging.pagingRead 30 false).2.mem (m'.toPaging.pagingRead 30 false).1 ⟨0, by decide⟩ 0 ≠
        filePage sevens 0 512 0 ⟨0, by decide⟩ 0 := by
  have hrun : ((Mmu.init (Paging.board .arty fun _ => 0)).calls sixProcesses).any (fun m =>
      (loadApp 7 (exchange (busy 6) sevens) 0 none smallProgram m).any (fun m' =>
        m'.Owned 30 7 ∧ (m'.table 30).pageNo = 0x8005 ∧
        (m'.toPaging.pagingRead 30 false).2.mem (m'.toPaging.pagingRead 30 false).1 0 0 ≠
          filePage sevens 0 512 0 0 0)) = true := by
    decide +kernel
  obtain ⟨m, hm, h⟩ := (Option.any_eq_true _ _).1 hrun
  obtain ⟨m', hm', hbad⟩ := (Option.any_eq_true _ _).1 h
  exact ⟨m, m', hm, hm', of_decide_eq_true hbad⟩

/-! ### Stores that go astray -/

/-- **A store to the frames**, whatever is there. -/
theorem Mmu.Private.stray {m : Mmu} {own : Fin 256 → Page} (h : m.Private own) {a : ℕ}
    (ha : ¬ Outside a) (p : Page) :
    ∃ own', ({ m with toPaging := m.toPaging.setPage a p } : Mmu).Private own' := by
  choose content hcontent using fun i => Paging.exists_hasFrame (m.toPaging.setPage a p) i
  refine ⟨fun i => if (m.table i).pid = m.currVmPid then own i else content i,
    ⟨h.inj, h.page, h.free⟩, h.ok.setPage a p, h.curr, ?_, ?_⟩
  · intro i hi
    have hout : (m.table i).pageNo ≠ a := by
      rintro rfl
      exact ha (h.page i _ h.curr hi).2
    rw [if_pos hi.2]
    exact (update_of_ne hout _ _).trans (h.live i hi)
  · intro i _ hpid
    rw [if_neg hpid]
    exact hcontent i

/-- The pages of a process that is not switched in, as the frames hold them. -/
theorem Mmu.Private.loaded {m : Mmu} {own : Fin 256 → Page} (h : m.Private own) {pid : ℤ}
    (hpid : pid ≠ 0) (hcurr : m.currVmPid ≠ pid) :
    ∃ pages, Loaded m own pid [] m own pages ∧
      ∀ a, pages a ≠ none → ∃ i, m.Owned i pid ∧ (m.table i).pageNo = a := by
  classical
  let pages : ℕ → Option Page := fun a =>
    if ha : ∃ i, m.Owned i pid ∧ (m.table i).pageNo = a then some (own ha.choose) else none
  have hmapped : ∀ a, pages a ≠ none → ∃ i, m.Owned i pid ∧ (m.table i).pageNo = a := by
    intro a hne
    by_contra hno
    exact hne (dif_neg hno)
  refine ⟨pages, ⟨hpid, h, hcurr, ?_, ?_, fun _ _ _ _ _ => ⟨rfl, rfl⟩⟩, hmapped⟩
  · intro i hi
    have ha : ∃ j, m.Owned j pid ∧ (m.table j).pageNo = (m.table i).pageNo := ⟨i, hi, rfl⟩
    have hsame : ha.choose = i :=
      h.inj _ i pid hpid ha.choose_spec.1 hi ha.choose_spec.2
    change dite _ _ _ = _
    rw [dif_pos ha, hsame]
  · intro a p hp
    exact hmapped a (by rw [hp]; simp)

/-- **What is left of the invariant of `load_app`** if its stores may go astray: the pages of the
new process are the code pages up to `codeStart`, and the other processes keep their frames. -/
structure Loading.Sound (m : Mmu) (pid : ℤ) (c : ℕ) (st : Loading) : Prop where
  priv : ∃ own, st.mmu.Private own
  other : ∀ i q, q ≠ 0 → q ≠ pid → m.Owned i q → st.mmu.table i = m.table i
  curr : st.mmu.currVmPid ≠ pid
  code : st.codeStart = 0x8005 + c
  pages : ∀ i, st.mmu.Owned i pid → (st.mmu.table i).pageNo < st.codeStart
  /-- The loader stores to the frames. -/
  base : 0 < c → ¬ Outside st.base

namespace Loading.Sound

variable {m : Mmu} {pid : ℤ} {c : ℕ} {st st' : Loading}

theorem newCodePage (h : st.Sound m pid c) (hpid : pid ≠ 0) (hc : c < 3)
    (hs : st.newCodePage pid = some st') : st'.Sound m pid (c + 1) := by
  obtain ⟨st₁, h₁, rfl⟩ := Option.map_eq_some_iff.1 hs
  obtain ⟨own, hpriv⟩ := h.priv
  obtain ⟨pages, hloaded, hmapped⟩ := hpriv.loaded hpid h.curr
  have hnew : pages st.codeStart = none := by
    by_contra hne
    obtain ⟨i, hi, hpage⟩ := hmapped _ hne
    exact absurd (h.pages i hi) (by omega)
  have huser : Mmu.UserPage st.codeStart := by
    rw [h.code]
    exact userPage_code hc
  obtain ⟨own', p, hloaded', -, hat, hcode⟩ := hloaded.newPage huser hnew h₁
  refine ⟨⟨own', hloaded'.priv⟩, ?_, hloaded'.curr, ?_, ?_, fun _ => hat.not_outside⟩
  · intro i q hq hqpid hi
    have hsame := h.other i q hq hqpid hi
    have hi' : st.mmu.Owned i q := by
      rw [Mmu.Owned, hsame]
      exact hi
    exact (hloaded'.other i q hq hqpid hi').1.trans hsame
  · change st₁.codeStart + 1 = _
    rw [hcode, h.code]
    omega
  · intro i hi
    change _ < st₁.codeStart + 1
    rw [hcode]
    have hpage := hloaded'.page i hi
    by_cases ha : (st₁.mmu.table i).pageNo = st.codeStart
    · exact ha ▸ Nat.lt_succ_self _
    · rw [update_of_ne ha] at hpage
      obtain ⟨j, hj, hja⟩ := hmapped _ (by rw [hpage]; simp)
      have hlt := h.pages j hj
      change (st₁.mmu.table i).pageNo < _
      omega

/-- Other processes run. -/
theorem meanwhile (h : st.Sound m pid c) {acts : List VmAct} (hlive : ∀ b ∈ acts, b.Live pid) :
    Sound m pid c { st with mmu := acts.foldl VmAct.run st.mmu } := by
  obtain ⟨own, hpriv⟩ := h.priv
  obtain ⟨htable, -, hcurr, own', hpriv', -⟩ := VmAct.foldl_run_spec acts hpriv hlive h.curr
  refine ⟨⟨own', hpriv'⟩, ?_, hcurr, h.code, ?_, h.base⟩
  · intro i q hq hqpid hi
    exact (congrFun htable i).trans (h.other i q hq hqpid hi)
  · intro i hi
    change ((acts.foldl VmAct.run st.mmu).table i).pageNo < _
    rw [htable]
    exact h.pages i ((Mmu.owned_congr htable i pid).1 hi)

/-- A store, wherever the address is by now. -/
theorem store (h : st.Sound m pid c) (hc : 0 < c) (f : Page → Page) :
    (st.store f).Sound m pid c := by
  obtain ⟨own, hpriv⟩ := h.priv
  exact ⟨hpriv.stray (h.base hc) _, h.other, h.curr, h.code, h.pages, h.base⟩

/-- **One turn of the first loop.** -/
theorem loadBlock {reader : Reader} (hreader : reader.Exchanges pid) {blockOffset n : ℕ}
    (h : st.Sound m pid ((n + 7) / 8)) (hpid : pid ≠ 0) (hn : n < 24)
    (hs : st.loadBlock pid reader blockOffset n = some st') :
    st'.Sound m pid ((n + 1 + 7) / 8) := by
  obtain ⟨⟨st₁, block⟩, h₁, rfl⟩ := Option.map_eq_some_iff.1 hs
  obtain ⟨st₀, h₀, heq⟩ := Option.map_eq_some_iff.1 h₁
  obtain ⟨rfl, rfl⟩ := Prod.mk.inj heq
  have hpage : st₀.Sound m pid ((n + 1 + 7) / 8) := by
    by_cases hmod : 512 * n % 4096 = 0
    · rw [if_pos hmod] at h₀
      have hsound := h.newCodePage hpid (by omega) h₀
      rwa [show (n + 7) / 8 + 1 = (n + 1 + 7) / 8 by omega] at hsound
    · rw [if_neg hmod] at h₀
      obtain rfl := Option.some.inj h₀
      rwa [show (n + 7) / 8 = (n + 1 + 7) / 8 by omega] at h
  obtain ⟨acts, hlive, hacts⟩ := hreader (blockOffset + n) st₀.mmu
  have hmeanwhile := hpage.meanwhile hlive
  rw [← hacts] at hmeanwhile
  exact hmeanwhile.store (by omega) _

/-- **One turn of the second loop.** -/
theorem zeroPage (h : st.Sound m pid c) (hpid : pid ≠ 0) (hc : c < 3)
    (hs : st.zeroPage pid = some st') : st'.Sound m pid (c + 1) := by
  obtain ⟨st₁, h₁, rfl⟩ := Option.map_eq_some_iff.1 hs
  exact (h.newCodePage hpid hc h₁).store (by omega) _

end Loading.Sound

/-- **The first stack page** has the arguments when `load_app` returns, whatever happens while the
blocks are fetched. -/
theorem loadApp_stackPage {m m' : Mmu} {own : Fin 256 → Page} {pid : ℤ} {reader : Reader} {argc : ℕ}
    {argv : Option (ℕ → UInt8)} {ph : ProgramHeader} (h : m.Private own) (hpid : pid ≠ 0)
    (hcurr : m.currVmPid ≠ pid) (hnew : ∀ i, ¬ m.Owned i pid) (hsize : ph.pFilesz ≤ 0x3000)
    (hreader : reader.Exchanges pid)
    (hload : loadApp pid reader argc argv ph m = some m') :
    (∀ i q, q ≠ 0 → q ≠ pid → m.Owned i q → m'.table i = m.table i) ∧
      ∃ own' i, ∃ p : Page, m'.Private own' ∧
        (m'.Owned i pid ∧ (m'.table i).pageNo = 0x80000) ∧ own' i = p.setArgs argc argv := by
  have hblocks : ph.nblocks = (ph.pFilesz + 511) / 512 := rfl
  obtain ⟨st₁, h₁, hload⟩ := Option.bind_eq_some_iff.1 hload
  obtain ⟨st₂, h₂, hload⟩ := Option.bind_eq_some_iff.1 hload
  obtain ⟨st₃, h₃, hload⟩ := Option.bind_eq_some_iff.1 hload
  obtain ⟨st₄, h₄, hload⟩ := Option.bind_eq_some_iff.1 hload
  obtain rfl := Option.some.inj hload
  have hstart : (Loading.start m).Sound m pid 0 :=
    ⟨⟨own, h⟩, fun _ _ _ _ _ => rfl, hcurr, rfl, fun i hi => absurd hi (hnew i),
      fun hpos => absurd hpos (by omega)⟩
  have hs₁ : st₁.Sound m pid ((ph.nblocks + 7) / 8) := Runs.foldlM_range_some
    (I := fun n st => st.Sound m pid ((n + 7) / 8)) hstart ph.nblocks
    (fun n st st' hn hst hstep => hst.loadBlock hreader hpid (by omega) hstep) st₁ h₁
  generalize hc : (ph.nblocks + 7) / 8 = c at hs₁
  -- the end of the last page is zeroed
  have hs₂ : (if ph.pFilesz % 4096 ≠ 0 then st₁.store fun p => p.zeroFrom (ph.pFilesz % 4096)
      else st₁).Sound m pid c := by
    split
    · exact hs₁.store (by omega) _
    · exact hs₁
  rw [hs₂.code] at h₂
  have hs₃ : st₂.Sound m pid (c + (0x8008 - (0x8005 + c))) := Runs.foldlM_range_some
    (I := fun k st => st.Sound m pid (c + k)) hs₂ _
    (fun k st st' hk hst hstep => hst.zeroPage hpid (by omega) hstep) st₂ h₂
  rw [show c + (0x8008 - (0x8005 + c)) = 3 by omega] at hs₃
  -- the two pages of the stack
  obtain ⟨own₂, hpriv⟩ := hs₃.priv
  obtain ⟨pages, hloaded, hmapped⟩ := hpriv.loaded hpid hs₃.curr
  have hstack : ∀ a, 0x80000 ≤ a → pages a = none := by
    intro a ha
    by_contra hne
    obtain ⟨i, hi, hpage⟩ := hmapped a hne
    have hlt := hs₃.pages i hi
    rw [hs₃.code] at hlt
    omega
  obtain ⟨own₅, p, q, hl₅⟩ := hloaded.stackPages hstack h₃ h₄
  have hpage : update (update pages 0x80000 (some (p.setArgs argc argv))) 0x80001
      (some q) 0x80000 = some (p.setArgs argc argv) := by
    rw [update_of_ne (by decide)]
    exact update_self _ _ _
  obtain ⟨i, hi, hpageNo⟩ := hl₅.mapped _ _ hpage
  refine ⟨?_, own₅, i, p, hl₅.priv, ⟨hi, hpageNo⟩, ?_⟩
  · intro j r hr hrpid hjr
    have hsame := hs₃.other j r hr hrpid hjr
    have hjr' : st₂.mmu.Owned j r := by
      rw [Mmu.Owned, hsame]
      exact hjr
    exact (hl₅.other j r hr hrpid hjr').1.trans hsame
  · have hown := hl₅.page i hi
    rw [hpageNo, hpage] at hown
    exact (Option.some.inj hown).symm

end Egos
