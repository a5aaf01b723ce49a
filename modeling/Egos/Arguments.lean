/-
**The arguments of a program** (`apps/system/sys_proc.c`, `library/elf/elf.c`, `grass/kernel.c`).

The shell splits a line into words and sends them to `GPID_PROCESS`, which loads the program and
stores the words in its first stack page.  When the kernel enters the program for the first time,
two registers have the addresses of `argc` and `argv`.

`GPID_PROCESS` is not interrupted by the timer, so that other processes run only while it fetches a
block of the file.  On the Arty board a block may then be stored in the wrong frame, but the stack
pages are allocated and written after the last block.

Main definitions:

* `Egos.Machine.appSpawn` — `app_spawn`;
* `Egos.Machine.turns` — the processes run and trap;
* `Egos.SystemCall` — what a system call makes of the first stack page;
* `Egos.HasArguments` — what `main` of the program is called with.

Main results:

* `Egos.Machine.appSpawn_spec` — `app_spawn` stores the arguments in the first stack page, whatever
  happens while the blocks are fetched;
* `Egos.arguments_reach_program` — **the program is called with the words of the line.**
-/

import Egos.Boot
import Egos.CommandLine

set_option autoImplicit false

namespace Egos

/-! ### Spawning -/

/-- The bytes of `req->argv`. -/
def ProcReq.args (req : ProcReq) (x : ℕ) : UInt8 :=
  req.argv (Fin.ofNat 16 (x / 32)) (Fin.ofNat 32 x)

namespace Machine

/-- `app_spawn`, in the state after the lookups.  The result is what it returns. -/
def appSpawn (m : Machine) (translation : Translation) (blocks : ℤ → Block) (reader : ℤ → Reader)
    (req : ProcReq) : Option (ℤ × Machine) := do
  let binIno ← dirLookup blocks 0 (chars ['b', 'i', 'n', '/'])
  let appIno ← dirLookup blocks binIno (req.argv.str 0)
  if appIno < 0 then some (-1, m)
  else
    match m.tab.procAlloc with
    | .ok (pid, k) => do
        let argc ← spawnArgc req
        let mmu ← elfLoad translation pid (reader appIno) argc.toNat (some req.args) m.mmu
        return (0, ({ m.update k with mmu := mmu } : Machine).procSetReady pid)
    | .error _ => none

/-- What happens outside the kernel, and a trap. -/
inductive Turn
  /-- The current process writes to the page of one of its frames. -/
  | write (i : Fin 256) (f : Page → Page)
  | trap (id : Kernel.IntrId) (mepc : UInt32) (registers : Fin 29 → UInt32)

/-- The machine after a turn. -/
def turn (m : Machine) : Turn → Option Machine
  | .write i f =>
      if m.mmu.Owned i m.mmu.currVmPid then
        some { m with
          mmu := { m.mmu with
            toPaging := m.mmu.toPaging.setPage (m.mmu.table i).pageNo
              (f (m.mmu.mem (m.mmu.table i).pageNo)) } }
      else none
  | .trap id mepc registers =>
      match (m.setRegisters mepc registers).kernelEntry id false with
      | .ok m => some m
      | .error _ => none

/-- The machine after some turns. -/
def turns (m : Machine) (ts : List Turn) : Option Machine := ts.foldlM turn m

/-- **What is true outside the kernel.** -/
structure Outer (m : Machine) : Prop where
  priv : ∃ own, m.mmu.Private own
  atUser : m.tab.AtUser
  mapped : m.Mapped
  /-- The pids have not wrapped. -/
  nprocs : m.procNprocs < 2 ^ 31

end Machine

/-! ### The processes run and trap -/

namespace Machine

variable {m m' : Machine} {cur : Fin 256 → Page}

/-- **A trap** keeps the pages of a new process, which is new until the trap returns to it. -/
theorem trap_spec {id : Kernel.IntrId} {mepc : UInt32} {registers : Fin 29 → UInt32}
    (h : m.mmu.Private cur) (hm : m.Outer) (ht : m.turn (.trap id mepc registers) = some m') :
    ∃ cur', m'.mmu.Private cur' ∧ m'.Outer ∧ m'.mmu.table = m.mmu.table ∧
      (∀ j, (m'.procSet j).pid = (m.procSet j).pid) ∧
      (∀ j i, (m.procSet j).status = .ready → m.mmu.Owned i (m.procSet j).pid → cur' i = cur i) ∧
      (∀ j, (m'.procSet j).status = .ready → (m.procSet j).status = .ready) ∧
      ((m.procSet m'.procCurrIdx).status = .ready → m'.mepc = APPS_ENTRY ∧
        m'.registers 8 = APPS_ARG ∧ m'.registers 9 = APPS_ARG + 4) := by
  dsimp only [turn] at ht
  cases htrap : (m.setRegisters mepc registers).kernelEntry id false with
  | error e =>
      rw [htrap] at ht
      exact absurd ht (by simp)
  | ok m₁ =>
      rw [htrap] at ht
      obtain rfl := Option.some.inj ht
      have hint : m.tab.currPid < 2 ^ 31 := by
        have hle := (hm.atUser.le m.procCurrIdx).2
        have hn := hm.nprocs
        change m.tab.currPid ≤ (m.procNprocs : ℤ) at hle
        omega
      have hk : ((m.setRegisters mepc registers).abs cur).AtUser :=
        ⟨⟨hm.atUser.inj, hm.atUser.pos, hm.atUser.le⟩, hm.atUser.running, hm.atUser.vm⟩
      obtain ⟨cur', hsteps, hentry, heffect⟩ :=
        kernelEntry_spec (m := m.setRegisters mepc registers) h hk hm.mapped hint htrap
      obtain ⟨hk', hnprocs, hpids, hviews, -⟩ := Kernel.kernelEntry_views hk hentry
      obtain ⟨hres, hmepc, hregs⟩ := Kernel.kernelEntry_resumes hk hentry
      have hstatus : ∀ j, (((m.setRegisters mepc registers).abs cur).save.procSet j).status =
          (m.procSet j).status := fun j => System.status_save _ j
      refine ⟨cur', hsteps.priv, ⟨⟨cur', hsteps.priv⟩, ⟨⟨hk'.inj, hk'.pos, hk'.le⟩, hk'.running,
        hk'.vm⟩, ?_, ?_⟩, hsteps.table, hpids, ?_, ?_, ?_⟩
      · intro q hdead hloading
        have halive : m.tab.view q ≠ .dead ∧ m.tab.view q ≠ .loading := by
          rcases hviews q with hsame | ⟨h₁, h₂, -⟩
          · exact ⟨hsame ▸ hdead, hsame ▸ hloading⟩
          · exact ⟨h₁, h₂⟩
        obtain ⟨i, hi⟩ := hm.mapped q halive.1 halive.2
        exact ⟨i, (Mmu.scFrame_congr hsteps.table q i).2 hi⟩
      · have hsame : m₁.procNprocs = m.procNprocs := hnprocs
        rw [hsame]
        exact hm.nprocs
      · intro j i hj hi
        rcases heffect.other i _ hi (hm.atUser.ready_ne hj) with hsame | ⟨-, hview, -⟩
        · exact hsame
        · -- a new process does not wait for a message
          have hpos : (m.procSet j).pid ≠ 0 := (hm.atUser.pos j (by
            change (m.procSet j).status ≠ _
            rw [hj]
            decide)).ne'
          have hrun : m.tab.view (m.procSet j).pid = .run := by
            refine (hm.atUser.view_pid hpos).trans ?_
            change (m.procSet j).view = _
            unfold Process.view
            rw [hj]
          exact absurd (hrun.symm.trans hview) (by simp)
      · intro j hj
        have hjc : j ≠ m₁.procCurrIdx := by
          intro hjc
          have hrunning : (m₁.procSet j).status = .running := (hk'.running j).2 hjc
          exact absurd (hrunning.symm.trans hj) (by decide)
        exact (hstatus j).symm.trans ((hres.other j hjc).ready.1 hj)
      · intro hstart
        obtain ⟨h₁, h₂, h₃⟩ := hres.ready ((hstatus _).trans hstart)
        exact ⟨hmepc.trans h₁, (congrFun hregs 8).trans h₂, (congrFun hregs 9).trans h₃⟩

/-- A write of the current process does not touch the pages of the others. -/
theorem write_spec {i : Fin 256} {f : Page → Page} (h : m.mmu.Private cur) (hm : m.Outer)
    (ht : m.turn (.write i f) = some m') :
    ∃ cur', m'.mmu.Private cur' ∧ m'.Outer ∧ m'.mmu.table = m.mmu.table ∧
      m'.procSet = m.procSet ∧
      ∀ j i, (m.procSet j).status = .ready → m.mmu.Owned i (m.procSet j).pid → cur' i = cur i := by
  dsimp only [turn] at ht
  split at ht
  · rename_i hi
    obtain rfl := Option.some.inj ht
    have hwrite := h.write hi (f (m.mmu.mem (m.mmu.table i).pageNo))
    refine ⟨_, hwrite, ⟨⟨_, hwrite⟩, ⟨⟨hm.atUser.inj, hm.atUser.pos, hm.atUser.le⟩,
      hm.atUser.running, hm.atUser.vm⟩, hm.mapped, hm.nprocs⟩, rfl, rfl, ?_⟩
    intro j k hj hk
    refine Function.update_of_ne ?_ _ _
    rintro rfl
    have hvm : m.mmu.currVmPid = m.tab.currPid := hm.atUser.vm
    exact hm.atUser.ready_ne hj (hk.2.symm.trans (hi.2.trans hvm))
  · exact absurd ht (by simp)

/-- **The first stack page of a new process** holds `p`. -/
def HoldsStack (m : Machine) (j : Fin 8) (p : Page) : Prop :=
  ∃ cur i, m.mmu.Private cur ∧ m.mmu.ScFrame (m.procSet j).pid i ∧ cur i = p

/-- **One turn**: a process that is new after it was new before, and has the same stack page. -/
theorem turn_spec {t : Turn} {j : Fin 8} (hm : m.Outer) (ht : m.turn t = some m') :
    m'.Outer ∧ ((m'.procSet j).status = .ready → (m.procSet j).status = .ready ∧
      ∀ p, m.HoldsStack j p → m'.HoldsStack j p) := by
  obtain ⟨own, hown⟩ := hm.priv
  cases t with
  | write i f =>
      obtain ⟨-, -, hm', htable, hprocs, -⟩ := write_spec hown hm ht
      refine ⟨hm', ?_⟩
      intro hready
      rw [hprocs] at hready
      refine ⟨hready, ?_⟩
      rintro p ⟨cur, k, hcur, hk, rfl⟩
      obtain ⟨cur', hcur', -, -, -, hsame⟩ := write_spec hcur hm ht
      refine ⟨cur', k, hcur', ?_, hsame j k hready hk.1⟩
      rw [hprocs]
      exact (Mmu.scFrame_congr htable _ k).2 hk
  | trap id mepc registers =>
      obtain ⟨-, -, hm', htable, hpids, -, hready, -⟩ := trap_spec hown hm ht
      refine ⟨hm', ?_⟩
      intro hready'
      have hj := hready j hready'
      refine ⟨hj, ?_⟩
      rintro p ⟨cur, k, hcur, hk, rfl⟩
      obtain ⟨cur', hcur', -, -, -, hsame, -, -⟩ := trap_spec hcur hm ht
      refine ⟨cur', k, hcur', ?_, hsame j k hj hk.1⟩
      rw [hpids]
      exact (Mmu.scFrame_congr htable _ k).2 hk

/-- **A run**: as long as a process is new, its stack page is the same. -/
theorem turns_spec {j : Fin 8} (ts : List Turn) : ∀ {m : Machine}, m.Outer → m.turns ts = some m' →
    m'.Outer ∧ ((m'.procSet j).status = .ready → (m.procSet j).status = .ready ∧
      ∀ p, m.HoldsStack j p → m'.HoldsStack j p) := by
  induction ts with
  | nil =>
      intro m hm hrun
      obtain rfl := Option.some.inj hrun
      exact ⟨hm, fun hready => ⟨hready, fun _ hp => hp⟩⟩
  | cons t ts ih =>
      intro m hm hrun
      obtain ⟨m₁, h₁, hrest⟩ := Option.bind_eq_some_iff.1 hrun
      obtain ⟨hm₁, hturn⟩ := turn_spec (j := j) hm h₁
      obtain ⟨hm', hturns⟩ := ih hm₁ hrest
      refine ⟨hm', ?_⟩
      intro hready
      obtain ⟨hready₁, hkeep₁⟩ := hturns hready
      obtain ⟨hready₀, hkeep₀⟩ := hturn hready₁
      exact ⟨hready₀, fun p hp => hkeep₁ p (hkeep₀ p hp)⟩

/-- **The process is entered** for the first time. -/
theorem entered {id : Kernel.IntrId} {mepc : UInt32} {registers : Fin 29 → UInt32} {j : Fin 8}
    {p : Page} (hm : m.Outer) (hready : (m.procSet j).status = .ready) (hp : m.HoldsStack j p)
    (ht : m.turn (.trap id mepc registers) = some m') (hj : m'.procCurrIdx = j) :
    m'.mepc = APPS_ENTRY ∧ m'.registers 8 = APPS_ARG ∧ m'.registers 9 = APPS_ARG + 4 ∧
      m'.mmu.mem scPageNo = p := by
  obtain ⟨cur, i, hcur, hi, rfl⟩ := hp
  obtain ⟨cur', hcur', hm', htable, hpids, hsame, -, hstart⟩ := trap_spec hcur hm ht
  obtain ⟨h₁, h₂, h₃⟩ := hstart (by rw [hj]; exact hready)
  refine ⟨h₁, h₂, h₃, ?_⟩
  have hvm : m'.mmu.currVmPid = (m.procSet j).pid := by
    rw [← hpids, ← hj]
    exact hm'.atUser.vm
  have hi' := (Mmu.scFrame_congr htable _ i).2 hi
  rw [← hvm] at hi'
  rw [← hsame j i hready hi.1, ← hi'.2]
  exact hcur'.live i hi'.1

end Machine

/-! ### The page with the arguments -/

/-- The little-endian number in the four bytes at an address. -/
def Paging.wordAt (s : Paging) (x : ℕ) : ℕ :=
  (s.byteAt x).toNat + 256 * (s.byteAt (x + 1)).toNat + 65536 * (s.byteAt (x + 2)).toNat +
    16777216 * (s.byteAt (x + 3)).toNat

/-- The string at an address, which a null byte ends. -/
structure Paging.StringAt (s : Paging) (x : ℕ) (w : List UInt8) : Prop where
  char : ∀ k (h : k < w.length), s.byteAt (x + k) = w[k]
  nul : s.byteAt (x + w.length) = 0
  ne : 0 ∉ w

def SYSCALL_ARG : ℕ := 0x80000400

/-- **What `main` of the program is called with**: `app_entry` loads `argc` from the address in a
register, and `argv` is in another one.  The strings are in the first stack page, and all of this is
below the `struct syscall`. -/
structure HasArguments (s : Paging) (argcAt argv : ℕ) (ws : List (List UInt8)) : Prop where
  argc : s.wordAt argcAt = ws.length
  inPage : ∀ i < ws.length, APPS_ARG.toNat ≤ s.wordAt (argv + 4 * i) ∧
    s.wordAt (argv + 4 * i) < APPS_ARG.toNat + 4096
  string : ∀ i (h : i < ws.length), s.StringAt (s.wordAt (argv + 4 * i)) ws[i]
  below : argcAt + 4 ≤ SYSCALL_ARG ∧ argv + 4 * ws.length ≤ SYSCALL_ARG ∧
    ∀ i (h : i < ws.length), s.wordAt (argv + 4 * i) + ws[i].length + 1 ≤ SYSCALL_ARG

/-- The bytes of a page. -/
theorem Paging.byteAt_page (s : Paging) (a : ℕ) {x : ℕ} (hx : x < 4096) :
    s.byteAt (4096 * a + x) = (s.mem a).byte x := by
  have hpage : (4096 * a + x) / 4096 = a := by omega
  have hblock : Fin.ofNat 8 ((4096 * a + x) / 512) = Fin.ofNat 8 (x / 512) :=
    Fin.ext (by simp only [Fin.ofNat]; omega)
  have hbyte : Fin.ofNat 512 (4096 * a + x) = Fin.ofNat 512 x :=
    Fin.ext (by simp only [Fin.ofNat]; omega)
  unfold Paging.byteAt Page.byte
  rw [hpage, hblock, hbyte]

/-- Four bytes of a number. -/
theorem Paging.wordAt_eq {s : Paging} {x v : ℕ} (h : ∀ k < 4, s.byteAt (x + k) = byteOf v k)
    (hv : v < 2 ^ 32) : s.wordAt x = v := by
  have h0 := h 0 (by omega)
  rw [Nat.add_zero] at h0
  rw [wordAt, h0, h 1 (by omega), h 2 (by omega), h 3 (by omega)]
  simp only [byteOf, UInt8.toNat_ofNat']
  omega

/-- The bytes of the page with the arguments. -/
theorem Page.setArgs_byte (p : Page) (argc : ℕ) (args : ℕ → UInt8) {x : ℕ} (hx : x < 4096) :
    (p.setArgs argc (some args)).byte x =
      if x < 4 then byteOf argc x
      else if x < 4 + 4 * argc then
        byteOf (0x80000000 + 4 + 4 * 16 + (x - 4) / 4 * 32) ((x - 4) % 4)
      else if 68 ≤ x ∧ x < 68 + 32 * argc then args (x - 68) else p.byte x := by
  have hoff : 512 * (Fin.ofNat 8 (x / 512)).val + (Fin.ofNat 512 x).val = x := by
    simp only [Fin.ofNat]
    omega
  unfold Page.byte Page.setArgs
  dsimp only
  rw [hoff]

/-- **The arguments are found** in the page: the number of the words, their addresses and the
words. -/
theorem hasArguments {s : Paging} {p : Page} {ws : List (List UInt8)} {args : ℕ → UInt8}
    (hmem : s.mem 0x80000 = p.setArgs ws.length (some args)) (hlen : ws.length ≤ 16)
    (hword : ∀ w ∈ ws, w.length ≤ 31 ∧ 0 ∉ w)
    (hargs : ∀ i (h : i < ws.length), ∀ k < 32, args (32 * i + k) = (ws[i]).getD k 0) :
    HasArguments s APPS_ARG.toNat (APPS_ARG + 4).toNat ws := by
  have hbyte : ∀ x < 4096,
      s.byteAt (0x80000000 + x) = (p.setArgs ws.length (some args)).byte x := by
    intro x hx
    rw [← hmem, ← Paging.byteAt_page s 0x80000 hx]
  have haddr : ∀ i < ws.length, s.wordAt ((APPS_ARG + 4).toNat + 4 * i) = 0x80000044 + 32 * i := by
    intro i hi
    refine Paging.wordAt_eq ?_ (by omega)
    intro k hk
    change s.byteAt (0x80000004 + 4 * i + k) = _
    rw [show 0x80000004 + 4 * i + k = 0x80000000 + (4 + 4 * i + k) by omega,
      hbyte _ (by omega), Page.setArgs_byte _ _ _ (by omega), if_neg (by omega), if_pos (by omega)]
    congr 1 <;> omega
  have hchar : ∀ i (h : i < ws.length), ∀ k < 32,
      s.byteAt (0x80000044 + 32 * i + k) = (ws[i]).getD k 0 := by
    intro i hi k hk
    rw [show 0x80000044 + 32 * i + k = 0x80000000 + (68 + 32 * i + k) by omega,
      hbyte _ (by omega), Page.setArgs_byte _ _ _ (by omega), if_neg (by omega), if_neg (by omega),
      if_pos (by omega), ← hargs i hi k hk]
    exact congrArg args (by omega)
  have hshort : ∀ i (h : i < ws.length), (ws[i]).length ≤ 31 := by
    intro i hi
    exact (hword _ (List.getElem_mem hi)).1
  refine ⟨?_, ?_, ?_, ?_⟩
  · refine Paging.wordAt_eq ?_ (by omega)
    intro k hk
    refine (hbyte k (by omega)).trans ?_
    rw [Page.setArgs_byte _ _ _ (by omega), if_pos hk]
  · intro i hi
    rw [haddr i hi]
    change 0x80000000 ≤ _ ∧ _ < 0x80000000 + 4096
    omega
  · intro i hi
    have hlen := hshort i hi
    rw [haddr i hi]
    refine ⟨?_, ?_, (hword _ (List.getElem_mem hi)).2⟩
    · intro k hk
      rw [hchar i hi k (by omega), List.getD_eq_getElem _ _ hk]
    · rw [hchar i hi _ (by omega), List.getD_eq_default _ _ (le_refl _)]
  · refine ⟨by decide, ?_, ?_⟩
    · change 0x80000004 + 4 * ws.length ≤ 0x80000400
      omega
    · intro i hi
      have hlen := hshort i hi
      rw [haddr i hi]
      change _ ≤ 0x80000400
      omega

/-! ### The new process -/

namespace Machine

variable {m m₁ : Machine} {translation : Translation} {blocks : ℤ → Block} {reader : ℤ → Reader}
  {req : ProcReq} {bin ino argc : ℤ} {ph : Segment} {j : Fin 8}

/-- **`app_spawn`** of a file that is found. -/
theorem appSpawn_eq (translation : Translation) (reader : ℤ → Reader)
    (hn : m.procNprocs + 1 < 2 ^ 31) (hj : m.tab.findUnused = some j)
    (hargc : spawnArgc req = some argc)
    (hbin : dirLookup blocks 0 (chars ['b', 'i', 'n', '/']) = some bin)
    (hino : dirLookup blocks bin (req.argv.str 0) = some ino) (hfound : 0 ≤ ino) :
    ∃ k, m.tab.procAlloc = .ok ((m.procNprocs + 1 : ℕ), k) ∧
      (k.procSet j).pid = (m.procNprocs + 1 : ℕ) ∧
      m.appSpawn translation blocks reader req =
        (elfLoad translation (m.procNprocs + 1 : ℕ) (reader ino) argc.toNat (some req.args)
          m.mmu).map fun mmu =>
          (0, ({ m.update k with mmu := mmu } : Machine).procSetReady (m.procNprocs + 1 : ℕ)) := by
  obtain ⟨k, halloc, hpid⟩ : ∃ k, m.tab.procAlloc = .ok ((m.procNprocs + 1 : ℕ), k) ∧
      (k.procSet j).pid = (m.procNprocs + 1 : ℕ) := by
    refine ⟨_, Kernel.procAlloc_eq hj hn, ?_⟩
    dsimp only
    rw [Kernel.setProc_self]
    rfl
  refine ⟨k, halloc, hpid, ?_⟩
  unfold appSpawn
  rw [hbin, Option.bind_eq_bind, Option.bind_some, hino, Option.bind_eq_bind, Option.bind_some,
    if_neg (by omega), halloc]
  dsimp only
  rw [hargc, Option.bind_some, Option.map_eq_bind]
  rfl

/-- **The state in which `app_spawn` leaves the machine**: the new process has the arguments in its
first stack page. -/
theorem appSpawn_spec (hm : m.Outer) (hn : m.procNprocs + 1 < 2 ^ 31)
    (hborn : ∀ i q, m.mmu.Owned i q → q ≤ m.procNprocs) (hj : m.tab.findUnused = some j)
    (hargc : spawnArgc req = some argc)
    (hbin : dirLookup blocks 0 (chars ['b', 'i', 'n', '/']) = some bin)
    (hino : dirLookup blocks bin (req.argv.str 0) = some ino) (hfound : 0 ≤ ino)
    (hph : IsProgram (reader ino 0 m.mmu).2 ph)
    (hreader : (reader ino).Exchanges (m.procNprocs + 1 : ℕ))
    (hspawn : m.appSpawn translation blocks reader req = some (0, m₁)) :
    (m₁.procSet j).status = .ready ∧
      (∃ p : Page, m₁.HoldsStack j (p.setArgs argc.toNat (some req.args))) ∧
      (m₁.mmu.currVmPid = m.mmu.currVmPid → m₁.Outer) := by
  obtain ⟨k, halloc, hslot, heq⟩ := appSpawn_eq translation reader hn hj hargc hbin hino hfound
  rw [heq, hph.elfLoad_eq rfl] at hspawn
  obtain ⟨mmu, hload, hm₁⟩ := Option.map_eq_some_iff.1 hspawn
  obtain rfl := (Prod.mk.inj hm₁).2
  split at hload
  · exact absurd hload (by simp)
  generalize hpid : ((m.procNprocs + 1 : ℕ) : ℤ) = pid at *
  have hpos : pid ≠ 0 := by omega
  -- no process has the new pid yet
  obtain ⟨own, hpriv⟩ := hm.priv
  have hvm : m.mmu.currVmPid = m.tab.currPid := hm.atUser.vm
  have hcurr : m.mmu.currVmPid ≠ pid := by
    have hle := (hm.atUser.le m.procCurrIdx).2
    change m.tab.currPid ≤ (m.procNprocs : ℤ) at hle
    omega
  have hnew : ∀ i, ¬ m.mmu.Owned i pid := by
    intro i hi
    have := hborn i pid hi
    omega
  obtain ⟨acts, hlive, hacts⟩ := hreader 0 m.mmu
  obtain ⟨htable, -, hcurr', own', hpriv', -⟩ := VmAct.foldl_run_spec acts hpriv hlive hcurr
  rw [hacts] at hload
  obtain ⟨hother, cur, i, p, hcur, hi, hargs⟩ := loadApp_stackPage hpriv' hpos hcurr'
    (fun i hi => hnew i ((Mmu.owned_congr htable i pid).1 hi)) hph.filesz hreader hload
  -- the process table
  obtain ⟨hk, -, hnprocs, -, hview, -, hkcurr⟩ := Kernel.procAlloc_spec hm.atUser hn halloc
  have hready : (({ m.update k with mmu := mmu } : Machine).procSetReady pid).procSet j =
      { k.procSet j with status := .ready } := if_pos hslot
  refine ⟨?_, ⟨p, cur, i, hcur, ?_, hargs⟩, ?_⟩
  · rw [hready]
  · rw [hready]
    change mmu.ScFrame (k.procSet j).pid i
    rw [hslot]
    exact hi
  · intro hback
    have hback' : mmu.currVmPid = k.currPid := (hback.trans hvm).trans hkcurr.symm
    have hat : ({ m.update k with mmu := mmu } : Machine).tab.AtUser :=
      ⟨⟨hk.inj, hk.pos, hk.le⟩, hk.running, hback'⟩
    have hloading : ({ m.update k with mmu := mmu } : Machine).tab.view pid = .loading := by
      change k.view pid = _
      rw [hview, Function.update_self]
    obtain ⟨hat', hview'⟩ := Kernel.procSetReady_spec hat hloading
    refine ⟨⟨cur, hcur⟩, ⟨⟨hat'.inj, hat'.pos, hat'.le⟩, hat'.running, hat'.vm⟩, ?_, ?_⟩
    · intro q hdead hnot
      by_cases hq : q = pid
      · subst hq
        exact ⟨i, hi⟩
      · -- another process keeps its frames
        have hviewq : (({ m.update k with mmu := mmu } : Machine).procSetReady pid).tab.view q =
            m.tab.view q := by
          refine (congrFun hview' q).trans ?_
          rw [Function.update_of_ne hq]
          change k.view q = _
          rw [hview, Function.update_of_ne hq]
        rw [hviewq] at hdead hnot
        obtain ⟨i', hi'⟩ := hm.mapped q hdead hnot
        obtain ⟨-, -, hq0, -⟩ := hm.atUser.exists_slot hdead
        have hkept := hother i' q hq0 hq ((Mmu.owned_congr htable i' q).2 hi'.1)
        rw [congrFun htable i'] at hkept
        refine ⟨i', ?_, ?_⟩
        · change mmu.Owned i' q
          rw [Mmu.Owned, hkept]
          exact hi'.1
        · change (mmu.table i').pageNo = _
          rw [hkept]
          exact hi'.2
    · change k.procNprocs < 2 ^ 31
      rw [hnprocs]
      exact hn

end Machine

/-! ### System calls -/

/-- `sc->msg.receiver`, at the offset 0x408 -/
def Page.setScReceiver (p : Page) (v : ℕ) : Page := p.setWord 2 2 v

/-- `memcpy` to `sc->msg.content`, at the offset 0x40c -/
def Page.setScContent (p : Page) (msg : ℕ → UInt8) (size : ℕ) : Page :=
  fun b j =>
    if 0x40c ≤ 512 * b.val + j.val ∧ 512 * b.val + j.val < 0x40c + size then
      msg (512 * b.val + j.val - 0x40c)
    else p b j

/-- **What a system call makes of the first stack page** of a process: the stores of `sys_send` or
`sys_recv`, and those of the kernel. -/
inductive SystemCall (pid : ℤ) (p : Page) : Page → Prop
  /-- The size is too large. -/
  | refused : SystemCall pid p p
  | send (receiver : ℤ) (msg : ℕ → UInt8) (size : ℕ) (hsize : size ≤ 1024) {p' : Page}
      (h : Machine.Answered pid
        (((p.setScType 2).setScReceiver (toUint receiver)).setScContent msg size) .soft p') :
      SystemCall pid p p'
  | recv {p' : Page} (h : Machine.Answered pid (p.setScType 1) .soft p') : SystemCall pid p p'

section Below

variable {x : ℕ} (hx : x < 0x400)
include hx

theorem Page.byte_setWord_below (p : Page) {b : Fin 8} (hb : 2 ≤ b.val) (i : Fin 128) (v : ℕ) :
    (p.setWord b i v).byte x = p.byte x := by
  unfold Page.byte Page.setWord
  rw [Function.update_of_ne]
  intro he
  have := congrArg Fin.val he
  simp only [Fin.ofNat] at this
  omega

theorem Page.byte_setScMsg_below (p : Page) (msg : MsgBytes) :
    (p.setScMsg msg).byte x = p.byte x := by
  unfold Page.byte Page.setScMsg
  rw [dif_neg]
  simp only [Fin.ofNat]
  omega

theorem Page.byte_setScContent_below (p : Page) (msg : ℕ → UInt8) (size : ℕ) :
    (p.setScContent msg size).byte x = p.byte x := by
  unfold Page.byte Page.setScContent
  rw [if_neg]
  simp only [Fin.ofNat]
  omega

theorem Page.byte_taken_below (p : Page) : p.taken.byte x = p.byte x := by
  unfold Page.taken Page.setScType Page.setScRetval
  rw [byte_setWord_below hx _ (by decide), byte_setWord_below hx _ (by decide)]

/-- The kernel writes to the `struct syscall`. -/
theorem Machine.Answered.byte_below {pid : ℤ} {old p : Page} {id : Kernel.IntrId}
    (h : Machine.Answered pid old id p) : p.byte x = old.byte x := by
  cases h with
  | timer => rfl
  | send =>
      unfold Page.setScSender
      rw [Page.byte_setWord_below hx _ (by decide), Page.byte_taken_below hx]
  | sendFail =>
      unfold Page.setScRetval Page.setScSender
      rw [Page.byte_setWord_below hx _ (by decide), Page.byte_setWord_below hx _ (by decide),
        Page.byte_taken_below hx]
  | recv => exact Page.byte_taken_below hx old
  | delivered _ msg => rw [Page.byte_setScMsg_below hx, Page.byte_taken_below hx]

/-- **A system call** leaves what is below the `struct syscall` as it is. -/
theorem SystemCall.byte_below {pid : ℤ} {p p' : Page} (h : SystemCall pid p p') :
    p'.byte x = p.byte x := by
  cases h with
  | refused => rfl
  | send receiver msg size hsize h =>
      rw [h.byte_below hx, Page.byte_setScContent_below hx, Page.setScReceiver,
        Page.byte_setWord_below hx _ (by decide), Page.setScType,
        Page.byte_setWord_below hx _ (by decide)]
  | recv h => rw [h.byte_below hx, Page.setScType, Page.byte_setWord_below hx _ (by decide)]

end Below

/-! ### From the line to the program -/

/-- The words that the program gets: the last one is for the shell if it starts with `&`. -/
def programWords (line : List UInt8) : List (List UInt8) :=
  if (words line).getLast?.bind List.head? = some 38 then (words line).dropLast else words line

/-- They are the first words of the line. -/
theorem programWords_prefix (line : List UInt8) : programWords line <+: words line := by
  unfold programWords
  split
  · exact List.dropLast_prefix _
  · exact List.prefix_refl _

theorem spawnArgc_eq_length {line : List UInt8} (hne : words line ≠ [])
    (hle : (words line).length ≤ 16) :
    spawnArgc ⟨.spawn, (words line).length, argvOf (words line)⟩ =
      some ((programWords line).length : ℤ) := by
  rw [spawnArgc_argvOf hne hle, programWords, List.getLast?_eq_some_getLast hne, Option.bind_some]
  split
  · rw [List.length_dropLast]
    have hpos := List.length_pos_iff.2 hne
    congr 1
    omega
  · rfl

/-- The words in the bytes of `argv`. -/
theorem args_eq {line : List UInt8} (hle : (words line).length ≤ 16) {i : ℕ}
    (hi : i < (programWords line).length) {k : ℕ} (hk : k < 32) :
    ProcReq.args ⟨.spawn, (words line).length, argvOf (words line)⟩ (32 * i + k) =
      ((programWords line)[i]).getD k 0 := by
  have hstart := programWords_prefix line
  have hi' : i < (words line).length := hi.trans_le hstart.length_le
  have hslot : (Fin.ofNat 16 ((32 * i + k) / 32)).val = i := by
    simp only [Fin.ofNat]
    omega
  have hchar : (Fin.ofNat 32 (32 * i + k)).val = k := by
    simp only [Fin.ofNat]
    omega
  unfold ProcReq.args argvOf
  dsimp only
  rw [hslot, hchar, List.getD_eq_getElem _ _ hi', hstart.getElem hi]

/-- **The arguments reach the program.**  `parse_request` accepts the line, and `app_spawn` finds
its first word, which is a program; a slot of the process table is free.  Then the program is loaded
if there are frames for it.  From then on the other processes run, and when a trap enters the new
process for the first time, it starts with the words of the line as its arguments, which no system
call overwrites. -/
theorem arguments_reach_program {line : List UInt8} (hnul : 0 ∉ line) {req₀ req : ProcReq}
    (hparse : parseRequest line { req₀ with type := .spawn } = some (0, req)) (hargc : 1 ≤ req.argc)
    {translation : Translation} {blocks : ℤ → Block} {reader : ℤ → Reader} {bin ino : ℤ}
    (hbin : dirLookup blocks 0 (chars ['b', 'i', 'n', '/']) = some bin)
    (hino : dirLookup blocks bin ((words line).headD []) = some ino) (hfound : 0 ≤ ino)
    {m : Machine} {ph : Segment} (hph : IsProgram (reader ino 0 m.mmu).2 ph) (hm : m.Outer)
    (hn : m.procNprocs + 1 < 2 ^ 31) (hborn : ∀ i q, m.mmu.Owned i q → q ≤ m.procNprocs)
    (hreader : (reader ino).Exchanges (m.procNprocs + 1 : ℕ)) {j : Fin 8}
    (hj : m.tab.findUnused = some j) :
    (used m.mmu.table + 5 ≤ 256 → (translation = .pageTable → m.procNprocs + 1 < 32) →
      ∃ m₁, m.appSpawn translation blocks reader req = some (0, m₁)) ∧
    (∀ m₁, m.appSpawn translation blocks reader req = some (0, m₁) →
      (m₁.procSet j).status = .ready ∧ (m₁.mmu.currVmPid = m.mmu.currVmPid → m₁.Outer) ∧
      -- what the other processes have made of their slots in the meantime
      ∀ m₂ : Machine, m₂.Outer → m₂.mmu = m₁.mmu → m₂.procSet j = m₁.procSet j →
        ∀ ts m₃, m₂.turns ts = some m₃ → (m₃.procSet j).status = .ready →
        ∀ id mepc registers m₄, m₃.turn (.trap id mepc registers) = some m₄ →
          m₄.procCurrIdx = j →
          m₄.mepc = APPS_ENTRY ∧ HasArguments m₄.mmu.toPaging (m₄.registers 8).toNat
            (m₄.registers 9).toNat (programWords line)) ∧
    ∀ pid p p', SystemCall pid p p' → ∀ x < SYSCALL_ARG - APPS_ARG.toNat, p'.byte x = p.byte x := by
  obtain ⟨hyes, hno⟩ := parseRequest_spec line { req₀ with type := .spawn }
  have hacc : Accepted line := by
    by_contra hacc
    obtain ⟨argv, hrefused⟩ := hno hacc
    rw [hparse] at hrefused
    exact absurd (congrArg Prod.fst (Option.some.inj hrefused)) (by simp)
  obtain rfl : req = ⟨.spawn, (words line).length, argvOf (words line)⟩ :=
    congrArg Prod.snd (Option.some.inj (hparse.symm.trans (hyes hacc)))
  have hne : words line ≠ [] := by
    intro hnil
    rw [hnil] at hargc
    exact absurd hargc (by decide)
  have hle := hacc.1.1
  have hspawnArgc := spawnArgc_eq_length hne hle
  have hstr : (argvOf (words line)).str 0 = (words line).headD [] := by
    rw [hacc.str hnul]
    cases words line with
    | nil => rfl
    | cons w ws => rfl
  rw [← hstr] at hino
  refine ⟨?_, ?_, ?_⟩
  · intro hroom hpid
    obtain ⟨k, -, -, heq⟩ :=
      Machine.appSpawn_eq translation reader hn hj hspawnArgc hbin hino hfound
    have hroom' : used (reader ino 0 m.mmu).1.table + 5 ≤ 256 := by
      rw [hreader.keepsTable]
      exact hroom
    obtain ⟨mmu, hload, -⟩ := loadApp_adds hroom' hph.filesz (m.procNprocs + 1 : ℕ)
      hreader.keepsTable ((programWords line).length : ℤ).toNat
      (some (ProcReq.args ⟨.spawn, (words line).length, argvOf (words line)⟩))
    rw [heq, hph.elfLoad_eq rfl, if_neg, hload]
    · exact ⟨_, rfl⟩
    · rintro ⟨htr, hlarge⟩
      have := hpid htr
      omega
  · intro m₁ hspawn
    obtain ⟨hready, ⟨p, hstack⟩, houter⟩ := Machine.appSpawn_spec hm hn hborn hj hspawnArgc
      hbin hino hfound hph hreader hspawn
    refine ⟨hready, houter, ?_⟩
    intro m₂ hm₂ hmmu hslot ts m₃ hturns hready₃ id mepc registers m₄ htrap hcurr
    have hstack₂ : m₂.HoldsStack j (p.setArgs (programWords line).length
        (some (ProcReq.args ⟨.spawn, (words line).length, argvOf (words line)⟩))) := by
      unfold Machine.HoldsStack
      rw [hmmu, hslot]
      exact hstack
    obtain ⟨hm₃, hkeep⟩ := Machine.turns_spec (j := j) ts hm₂ hturns
    obtain ⟨hmepc, ha0, ha1, hmem⟩ :=
      Machine.entered hm₃ hready₃ ((hkeep hready₃).2 _ hstack₂) htrap hcurr
    refine ⟨hmepc, ?_⟩
    rw [ha0, ha1]
    have hstart := programWords_prefix line
    refine hasArguments hmem (hstart.length_le.trans hle) ?_ ?_
    · intro w hw
      have hw' := hstart.subset hw
      exact ⟨hacc.1.2 w hw', fun h0 =>
        hnul (((mem_wordsFrom hw').2 0 h0).resolve_left List.not_mem_nil)⟩
    · intro i hi k hk
      exact args_eq hle hi hk
  · intro pid p p' hcall x hx
    exact hcall.byte_below hx

/-- A line with two arguments, for a program in the background. -/
def lsLine : List UInt8 := chars ['l', 's', ' ', ' ', '-', 'l', ' ', '&']

/-- The request for the line. -/
def lsRequest : ProcReq := ⟨.spawn, (words lsLine).length, argvOf (words lsLine)⟩

/-- A binary of 516 bytes, with a segment of four bytes in its second block. -/
def lsElf : Mkfs.HostFile where
  bytes := (List.range 516).map (fileWith 0x08005000 4 8)
  chunk _ := 516
  chunk_pos _ := by decide

/-- The root directory, `/bin` and the binary of `ls`. -/
def lsTable : List (List UInt8) :=
  [dirText [entryOf ['.', '/'] 1 0 (by decide), entryOf ['.', '.', '/'] 1 0 (by decide), binEntry],
    dirText [entryOf ['.', '/'] 1 1 (by decide), entryOf ['.', '.', '/'] 1 0 (by decide),
      entryOf ['l', 's'] 1 2 (by decide)],
    chars ['#', 'l', 's']]

/-- The disk with a file system that `mkfs` has made. -/
def diskWith (r : EStateM.Result String Disk Unit) (b : ℕ) : Block :=
  match r with
  | .ok _ fs => if b < Mkfs.grassFsStart then nullBlock else fs (b - Mkfs.grassFsStart)
  | .error _ _ => nullBlock

/-- It has the file system of the image. -/
theorem diskWith_eq {host : List UInt8 → Mkfs.HostFile} {contents : List (List UInt8)}
    {buf : Mkfs.Buf} {image : List UInt8} (hmain : Mkfs.main host [] contents buf = .ok image)
    (b : ℕ) (hb : 4096 ≤ b) (hb' : b < 8192) :
    diskWith (Mkfs.mkfs host contents buf fun _ => nullBlock) b = Mkfs.imageBlock image b := by
  obtain ⟨-, fs, hfs, -, hblocks⟩ := Mkfs.main_ok (Nat.zero_le _) hmain
  have hstart : Mkfs.grassFsStart = 4096 := rfl
  have hsize : Mkfs.fsDiskBlocks = 4096 := rfl
  have hblock := hblocks (b - Mkfs.grassFsStart) (by omega)
  rw [show Mkfs.grassFsStart + (b - Mkfs.grassFsStart) = b by omega] at hblock
  rw [hfs, hblock]
  exact if_neg (by omega)

/-- The disk with the file system of the table. -/
@[irreducible] def lsDisk : ℕ → Block :=
  diskWith (Mkfs.mkfs (fun _ => lsElf) lsTable (fun _ => 0) fun _ => nullBlock)

theorem exists_lsImage :
    ∃ image, Mkfs.main (fun _ => lsElf) [] lsTable (fun _ => 0) = .ok image ∧
      ∀ b, 4096 ≤ b → b < 8192 → lsDisk b = Mkfs.imageBlock image b := by
  have hfits : ∀ entry ∈ lsTable, Mkfs.Fits (fun _ => lsElf) entry := by decide +kernel
  have hsum : (lsTable.map (Mkfs.entryBlocks fun _ => lsElf)).sum ≤ 4093 := by decide +kernel
  obtain ⟨image, himage⟩ := Mkfs.exists_image (Nat.zero_le _)
    (fun f hf => absurd hf List.not_mem_nil) (by decide) hfits hsum
  refine ⟨image, himage, ?_⟩
  intro b hb hb'
  unfold lsDisk
  exact diskWith_eq himage b hb hb'

/-- The first blocks of its files. -/
def lsBlocks : ℤ → Block := fileBlocks (fun _ => nullBlock) lsDisk

/-- `app_read` of its files; another process is switched in for every block. -/
def lsRead (ino : ℤ) : Reader :=
  (appRead (fun _ => [.softTlbSwitch 3]) (fun _ => [.softTlbSwitch 1]) (fun _ => nullBlock)
    (toUint ino)).read

/-- A board with the disk. -/
def lsBoard : Paging := { Paging.board .qemuLatest fun _ => 0 with disk := lsDisk }

/-- The machine once the first process is loaded. -/
theorem boot_outer {sp : Spaces} (hsp : sp.Ok) {i : Fin 256} (hi : sp.mmu.ScFrame GPID_PROCESS i)
    (registers : Fin 29 → UInt32) : (System.boot sp registers).machine.Outer := by
  have hok := System.boot_ok hsp hi registers
  refine ⟨⟨_, hok.priv⟩, ⟨⟨hok.atUser.inj, hok.atUser.pos, hok.atUser.le⟩, hok.atUser.running,
    hok.atUser.vm⟩, hok.mapped, ?_⟩
  change 1 < 2 ^ 31
  decide

/-- The machine in which the first process runs, with one page. -/
def lsMachine (sp : Spaces) : Machine := (System.boot sp fun _ => 0).machine

set_option maxRecDepth 100000 in
/-- The first process spawns a program, and waits for a message. -/
theorem arguments_reach_program_ls :
    ∃ image sp m₁ m₃ m₄, Mkfs.main (fun _ => lsElf) [] lsTable (fun _ => 0) = .ok image ∧
      (∀ b, 4096 ≤ b → b < 8192 → lsBoard.disk b = Mkfs.imageBlock image b) ∧
      (Spaces.start lsBoard).run System.firstPage = some sp ∧
      (lsMachine sp).appSpawn .softTlb lsBlocks lsRead lsRequest = some (0, m₁) ∧
      m₁.turns [.write 0 fun _ => System.callPage 1 0] = some m₃ ∧
      m₃.turn (.trap .soft APPS_ENTRY fun _ => 0) = some m₄ ∧ m₄.procCurrIdx = 1 ∧
      m₄.mepc = APPS_ENTRY ∧ HasArguments m₄.mmu.toPaging (m₄.registers 8).toNat
        (m₄.registers 9).toNat [chars ['l', 's'], chars ['-', 'l']] := by
  have hrun : ((Spaces.start lsBoard).run System.firstPage).any (fun sp =>
      decide (sp.mmu.ScFrame GPID_PROCESS 0 ∧
        dirLookup lsBlocks 0 (chars ['b', 'i', 'n', '/']) = some 1 ∧
        dirLookup lsBlocks 1 (chars ['l', 's']) = some 2 ∧
        phnum (lsRead 2 0 (lsMachine sp).mmu).2 = some 1 ∧
        programHeader (lsRead 2 0 (lsMachine sp).mmu).2 0 = some ⟨⟨512, 4⟩, 0x08005000, 8⟩ ∧
        ∀ i, ((lsMachine sp).mmu.table i).use = true → ((lsMachine sp).mmu.table i).pid ≤ 1) &&
      ((lsMachine sp).appSpawn .softTlb lsBlocks lsRead lsRequest).any fun r =>
        decide (r.1 = 0 ∧ r.2.mmu.currVmPid = 1) &&
        (r.2.turns [.write 0 fun _ => System.callPage 1 0]).any fun m₃ =>
          decide ((m₃.procSet 1).status = .ready) &&
          (m₃.turn (.trap .soft APPS_ENTRY fun _ => 0)).any fun m₄ =>
            decide (m₄.procCurrIdx = 1)) = true := by
    decide +kernel
  obtain ⟨image, himage, hdisk⟩ := exists_lsImage
  obtain ⟨sp, hsp, hrun⟩ := (Option.any_eq_true _ _).1 hrun
  obtain ⟨hfacts, hrun⟩ := Bool.and_eq_true_iff.1 hrun
  obtain ⟨⟨r, m₁⟩, hspawn, hrun⟩ := (Option.any_eq_true _ _).1 hrun
  obtain ⟨hback, hrun⟩ := Bool.and_eq_true_iff.1 hrun
  obtain ⟨m₃, hturns, hrun⟩ := (Option.any_eq_true _ _).1 hrun
  obtain ⟨hready, hrun⟩ := Bool.and_eq_true_iff.1 hrun
  obtain ⟨m₄, htrap, hcurr⟩ := (Option.any_eq_true _ _).1 hrun
  obtain ⟨hframe, hbin, hino, hphnum, hheader, hborn⟩ := of_decide_eq_true hfacts
  obtain ⟨hr, hback⟩ := of_decide_eq_true hback
  obtain rfl : r = 0 := hr
  have hparse : parseRequest lsLine ⟨.spawn, 0, fun _ _ => 0⟩ = some (0, lsRequest) :=
    (parseRequest_spec lsLine _).1 ⟨⟨by decide, by decide⟩, fun h => absurd h.1 (by decide)⟩
  have hph : IsProgram (lsRead 2 0 (lsMachine sp).mmu).2 ⟨⟨512, 4⟩, 0x08005000, 8⟩ :=
    ⟨⟨1, 0, hphnum, by decide, hheader, fun j hj hj0 => absurd hj (by omega)⟩, by decide, rfl,
      by decide⟩
  have houter := boot_outer ((Spaces.start_ok _).run hsp) hframe fun _ => 0
  have hn : (lsMachine sp).procNprocs + 1 < 2 ^ 31 := by
    change 1 + 1 < 2 ^ 31
    decide
  have hborn' : ∀ i q, (lsMachine sp).mmu.Owned i q → q ≤ (lsMachine sp).procNprocs := by
    intro i q hi
    rw [← hi.2]
    exact hborn i hi.1
  have hlive : ∀ n, ∀ b ∈ (appRead (fun _ => [.softTlbSwitch 3]) (fun _ => [.softTlbSwitch 1])
      (fun _ => nullBlock) (toUint 2)).meanwhile n, b.Live 2 := by
    intro n b hb
    rcases List.mem_cons.1 hb with rfl | hb
    · exact ⟨by decide, by decide⟩
    · rw [List.mem_singleton.1 hb]
      exact ⟨by decide, by decide⟩
  obtain ⟨-, hstart, -⟩ := @arguments_reach_program lsLine (by decide) ⟨.spawn, 0, fun _ _ => 0⟩
    lsRequest hparse (by decide) .softTlb lsBlocks lsRead 1 2 hbin hino (by decide) (lsMachine sp) _
    hph houter hn hborn' (DiskReader.read_exchanges hlive) 1 rfl
  obtain ⟨-, hm₁, hstart⟩ := hstart m₁ hspawn
  have hvm : (lsMachine sp).mmu.currVmPid = 1 := Mmu.softTlbSwitch_currVmPid _ _
  obtain ⟨hmepc, hargs⟩ := hstart m₁ (hm₁ (hback.trans hvm.symm)) rfl rfl _ m₃ hturns
    (of_decide_eq_true hready) _ _ _ m₄ htrap (of_decide_eq_true hcurr)
  exact ⟨image, sp, m₁, m₃, m₄, himage, hdisk, hsp, hspawn, hturns, htrap, of_decide_eq_true hcurr,
    hmepc, hargs⟩

/-- The line that names the directory above `/bin`. -/
def upLine : List UInt8 := chars ['.', '.', '/']

/-- The request for the line. -/
def upRequest : ProcReq := ⟨.spawn, (words upLine).length, argvOf (words upLine)⟩

set_option maxRecDepth 100000 in
/-- **A directory is spawned.**  The line `../` is accepted and found in `/bin`, where it is the
root directory.  It has no program headers, so that nothing is loaded, and the process is set ready
without a page; when it is entered, it has no arguments. -/
theorem directory_is_spawned :
    ∃ image sp m₁ m₃ m₄, Mkfs.main (fun _ => lsElf) [] lsTable (fun _ => 0) = .ok image ∧
      (∀ b, 4096 ≤ b → b < 8192 → lsBoard.disk b = Mkfs.imageBlock image b) ∧
      (Spaces.start lsBoard).run System.firstPage = some sp ∧ (lsMachine sp).Outer ∧
      (lsMachine sp).tab.findUnused = some 1 ∧ used (lsMachine sp).mmu.table + 5 ≤ 256 ∧
      parseRequest upLine ⟨.spawn, 0, fun _ _ => 0⟩ = some (0, upRequest) ∧ 1 ≤ upRequest.argc ∧
      dirLookup lsBlocks 0 (chars ['b', 'i', 'n', '/']) = some 1 ∧
      dirLookup lsBlocks 1 upLine = some 0 ∧
      (lsMachine sp).appSpawn .softTlb lsBlocks lsRead upRequest = some (0, m₁) ∧
      (m₁.procSet 1).status = .ready ∧ (∀ i, ¬ m₁.mmu.Owned i 2) ∧
      m₁.turns [.write 0 fun _ => System.callPage 1 0] = some m₃ ∧
      m₃.turn (.trap .soft APPS_ENTRY fun _ => 0) = some m₄ ∧ m₄.procCurrIdx = 1 ∧
      m₄.mepc = APPS_ENTRY ∧ ¬ HasArguments m₄.mmu.toPaging (m₄.registers 8).toNat
        (m₄.registers 9).toNat [upLine] := by
  have hrun : ((Spaces.start lsBoard).run System.firstPage).any (fun sp =>
      decide (sp.mmu.ScFrame GPID_PROCESS 0 ∧ used (lsMachine sp).mmu.table + 5 ≤ 256 ∧
        dirLookup lsBlocks 0 (chars ['b', 'i', 'n', '/']) = some 1 ∧
        dirLookup lsBlocks 1 upLine = some 0) &&
      ((lsMachine sp).appSpawn .softTlb lsBlocks lsRead upRequest).any fun r =>
        decide (r.1 = 0 ∧ (r.2.procSet 1).status = .ready ∧ ∀ i, ¬ r.2.mmu.Owned i 2) &&
        (r.2.turns [.write 0 fun _ => System.callPage 1 0]).any fun m₃ =>
          (m₃.turn (.trap .soft APPS_ENTRY fun _ => 0)).any fun m₄ =>
            decide (m₄.procCurrIdx = 1 ∧ m₄.mepc = APPS_ENTRY ∧
              m₄.mmu.toPaging.wordAt (m₄.registers 8).toNat ≠ 1)) = true := by
    decide +kernel
  obtain ⟨image, himage, hdisk⟩ := exists_lsImage
  obtain ⟨sp, hsp, hrun⟩ := (Option.any_eq_true _ _).1 hrun
  obtain ⟨hfacts, hrun⟩ := Bool.and_eq_true_iff.1 hrun
  obtain ⟨⟨r, m₁⟩, hspawn, hrun⟩ := (Option.any_eq_true _ _).1 hrun
  obtain ⟨hnew, hrun⟩ := Bool.and_eq_true_iff.1 hrun
  obtain ⟨m₃, hturns, hrun⟩ := (Option.any_eq_true _ _).1 hrun
  obtain ⟨m₄, htrap, hentered⟩ := (Option.any_eq_true _ _).1 hrun
  obtain ⟨hframe, hroom, hbin, hup⟩ := of_decide_eq_true hfacts
  obtain ⟨hr, hready, hnone⟩ := of_decide_eq_true hnew
  obtain ⟨hcurr, hmepc, hargc⟩ := of_decide_eq_true hentered
  obtain rfl : r = 0 := hr
  have hparse : parseRequest upLine ⟨.spawn, 0, fun _ _ => 0⟩ = some (0, upRequest) :=
    (parseRequest_spec upLine _).1 ⟨⟨by decide, by decide⟩, fun h => absurd h.1 (by decide)⟩
  have houter := boot_outer ((Spaces.start_ok _).run hsp) hframe fun _ => 0
  exact ⟨image, sp, m₁, m₃, m₄, himage, hdisk, hsp, houter, rfl, hroom, hparse, by decide, hbin,
    hup, hspawn, hready, hnone, hturns, htrap, hcurr, hmepc, fun h => hargc h.argc⟩

end Egos
