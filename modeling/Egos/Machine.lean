/-
**The kernel over the software TLB.**

In `Egos/Kernel.lean` every process has a `struct syscall` of its own.  In the machine there is one
address, `SYSCALL_ARG`, at which the kernel finds the structure of the process that is switched in;
`mmu_switch` copies pages.  Here the kernel works on that memory, and it does what the kernel with
one structure per process does.

Main definitions:

* `Egos.Page.scMsg`, `Egos.Page.setScType`, … — the fields of the `struct syscall` in a page;
* `Egos.Machine`, `Egos.Machine.kernelEntry` — the kernel, with the MMU;
* `Egos.Machine.abs` — the kernel with one structure per process.

Main results:

* `Egos.Machine.kernelEntry_spec` — **a trap of the machine is one of the kernel**, and of the pages
  of the processes it changes the `struct syscall` of the current one, and that of a receiver.
-/

import Egos.Contexts
import Egos.Spaces

set_option autoImplicit false

namespace Egos

/-! ### The `struct syscall` in a page -/

/-- A 32-bit number as an `int`. -/
def toInt (v : ℕ) : ℤ := Int.bmod v (2 ^ 32)

theorem toInt_toUint {z : ℤ} (h : 0 ≤ z) (h' : z < 2 ^ 31) : toInt (toUint z) = z := by
  have hmod : z % 2 ^ 32 = z := Int.emod_eq_of_lt h (by omega)
  have hcast : (toUint z : ℤ) = z := by rw [toUint, hmod, Int.toNat_of_nonneg h]
  unfold toInt
  rw [hcast]
  exact Int.bmod_eq_of_le (by omega) (by omega)

theorem toInt_toUint_neg_one : toInt (toUint (-1)) = -1 := by decide

theorem toUint_lt (z : ℤ) : toUint z < 2 ^ 32 := by
  have hlt := Int.emod_lt_of_pos z (show (0 : ℤ) < 2 ^ 32 by decide)
  have hpos := Int.emod_nonneg z (show (2 ^ 32 : ℤ) ≠ 0 by decide)
  unfold toUint
  omega

/-- The type of a system call, as the kernel tells them apart. -/
def syscallType : ℕ → SyscallType
  | 0 => .unused
  | 1 => .recv
  | 2 => .send
  | _ => .ncalls

/-- The bytes of a `struct sys_msg`. -/
abbrev MsgBytes : Type := Fin 1032 → UInt8

/-- The little-endian number in four bytes of a message. -/
def MsgBytes.word (m : MsgBytes) (i : Fin 2) : ℕ :=
  (m ⟨4 * i, by omega⟩).toNat + 256 * (m ⟨4 * i + 1, by omega⟩).toNat +
    65536 * (m ⟨4 * i + 2, by omega⟩).toNat + 16777216 * (m ⟨4 * i + 3, by omega⟩).toNat

/-- The message in the bytes. -/
def MsgBytes.msg (m : MsgBytes) : SysMsg (Fin 1024 → UInt8) :=
  ⟨toInt (m.word 0), toInt (m.word 1), fun j => m ⟨8 + j, by omega⟩⟩

namespace Page

/-- The byte at an offset. -/
def byte (p : Page) (x : ℕ) : UInt8 := p (Fin.ofNat 8 (x / 512)) (Fin.ofNat 512 x)

/-- Assign to the word `i` of the block `b`. -/
def setWord (p : Page) (b : Fin 8) (i : Fin 128) (v : ℕ) : Page :=
  Function.update p b ((p b).setWord i v)

/-- `sc->type`, at the offset 0x400 -/
def scType (p : Page) : ℕ := (p 2).word 0

@[inherit_doc scType]
def setScType (p : Page) (v : ℕ) : Page := p.setWord 2 0 v

/-- `sc->msg.sender`, at the offset 0x404 -/
def setScSender (p : Page) (v : ℕ) : Page := p.setWord 2 1 v

/-- `sc->msg.receiver`, at the offset 0x408 -/
def scReceiver (p : Page) : ℕ := (p 2).word 2

/-- `sc->retval`, at the offset 0x80c -/
def scRetval (p : Page) : ℕ := (p 4).word 3

@[inherit_doc scRetval]
def setScRetval (p : Page) (v : ℕ) : Page := p.setWord 4 3 v

/-- `sc->msg`, the bytes from 0x404 to 0x80c -/
def scMsg (p : Page) : MsgBytes := fun j => p.byte (0x404 + j)

@[inherit_doc scMsg]
def setScMsg (p : Page) (msg : MsgBytes) : Page :=
  fun b j =>
    if h : 0x404 ≤ 512 * b.val + j.val ∧ 512 * b.val + j.val < 0x80c then
      msg ⟨512 * b.val + j.val - 0x404, by omega⟩
    else p b j

/-- The page once the kernel has taken note of the call. -/
def taken (p : Page) : Page := (p.setScRetval 0).setScType 0

/-- The `struct syscall` in the page. -/
def syscall (p : Page) : Syscall (Fin 1024 → UInt8) :=
  ⟨syscallType p.scType, p.scMsg.msg, toInt p.scRetval⟩

theorem word_setWord_self (p : Page) (b : Fin 8) (i : Fin 128) {v : ℕ} (hv : v < 2 ^ 32) :
    (p.setWord b i v b).word i = v := by
  rw [setWord, Function.update_self]
  exact Block.word_setWord_self _ i hv

theorem word_setWord_of_ne (p : Page) {b c : Fin 8} {i j : Fin 128} (h : c ≠ b ∨ j ≠ i) (v : ℕ) :
    (p.setWord b i v c).word j = (p c).word j := by
  by_cases hc : c = b
  · subst hc
    rw [setWord, Function.update_self]
    exact Block.word_setWord_of_ne _ (h.resolve_left (fun hne => hne rfl)) v
  · rw [setWord, Function.update_of_ne hc]

/-- A word that does not overlap the message. -/
theorem scMsg_setWord (p : Page) {b : Fin 8} {i : Fin 128} (v : ℕ)
    (h : 512 * b.val + 4 * i.val < 0x404 ∨ 0x80c ≤ 512 * b.val + 4 * i.val) :
    (p.setWord b i v).scMsg = p.scMsg := by
  funext j
  have hj := j.isLt
  simp only [scMsg, byte]
  generalize hc : Fin.ofNat 8 ((0x404 + j.val) / 512) = c
  have hcv : c.val = (0x404 + j.val) / 512 := by
    rw [← hc]
    exact Nat.mod_eq_of_lt (by omega)
  by_cases hcb : c = b
  · subst hcb
    rw [setWord, Function.update_self]
    have hne : ((0x404 + j.val) % 512) / 4 ≠ i.val := by
      rw [hcv] at h
      omega
    exact if_neg hne
  · rw [setWord, Function.update_of_ne hcb]

theorem scMsg_setScMsg (p : Page) (msg : MsgBytes) : (p.setScMsg msg).scMsg = msg := by
  funext j
  have hj := j.isLt
  have hx : 512 * (Fin.ofNat 8 ((0x404 + j.val) / 512)).val + (Fin.ofNat 512 (0x404 + j.val)).val =
      0x404 + j.val := by
    have hdiv : (Fin.ofNat 8 ((0x404 + j.val) / 512)).val = (0x404 + j.val) / 512 :=
      Nat.mod_eq_of_lt (by omega)
    have hmod : (Fin.ofNat 512 (0x404 + j.val)).val = (0x404 + j.val) % 512 := rfl
    omega
  simp only [scMsg, byte, setScMsg]
  rw [dif_pos (by omega)]
  refine congrArg msg (Fin.ext ?_)
  dsimp only
  omega

/-- A word that does not overlap the message. -/
theorem word_setScMsg (p : Page) {b : Fin 8} {i : Fin 128} (msg : MsgBytes)
    (h : 512 * b.val + 4 * i.val + 4 ≤ 0x404 ∨ 0x80c ≤ 512 * b.val + 4 * i.val) :
    (p.setScMsg msg b).word i = (p b).word i := by
  have hbyte : ∀ x (hx : 4 * i.val + x < 512), x < 4 →
      p.setScMsg msg b ⟨4 * i.val + x, hx⟩ = p b ⟨4 * i.val + x, hx⟩ := by
    intro x hx hx4
    have hout : ¬ (0x404 ≤ 512 * b.val + (4 * i.val + x) ∧
        512 * b.val + (4 * i.val + x) < 0x80c) := by
      omega
    exact dif_neg hout
  have h0 := hbyte 0 (by omega) (by omega)
  simp only [add_zero] at h0
  simp only [Block.word, h0, hbyte 1 (by omega) (by omega), hbyte 2 (by omega) (by omega),
    hbyte 3 (by omega) (by omega)]

/-- The receiver is in the message. -/
theorem toInt_scReceiver (p : Page) : toInt p.scReceiver = p.syscall.msg.receiver := by
  have hword : p.scMsg.word 1 = p.scReceiver := rfl
  simp only [syscall, MsgBytes.msg, hword]

@[simp] theorem syscall_setScType (p : Page) {v : ℕ} (hv : v < 2 ^ 32) :
    (p.setScType v).syscall = { p.syscall with type := syscallType v } := by
  simp only [syscall, setScType, scType, scRetval, word_setWord_self p 2 0 hv,
    word_setWord_of_ne p (show (4 : Fin 8) ≠ 2 ∨ (3 : Fin 128) ≠ 0 from Or.inl (by decide)),
    scMsg_setWord p (b := 2) (i := 0) v (Or.inl (by decide))]

@[simp] theorem syscall_setScRetval (p : Page) {v : ℕ} (hv : v < 2 ^ 32) :
    (p.setScRetval v).syscall = { p.syscall with retval := toInt v } := by
  simp only [syscall, setScRetval, scType, scRetval, word_setWord_self p 4 3 hv,
    word_setWord_of_ne p (show (2 : Fin 8) ≠ 4 ∨ (0 : Fin 128) ≠ 3 from Or.inl (by decide)),
    scMsg_setWord p (b := 4) (i := 3) v (Or.inr (by decide))]

@[simp] theorem syscall_setScMsg (p : Page) (msg : MsgBytes) :
    (p.setScMsg msg).syscall = { p.syscall with msg := msg.msg } := by
  simp only [syscall, scType, scRetval, scMsg_setScMsg,
    word_setScMsg p (b := 2) (i := 0) msg (Or.inl (by decide)),
    word_setScMsg p (b := 4) (i := 3) msg (Or.inr (by decide))]

@[simp] theorem syscall_setScSender (p : Page) {v : ℕ} (hv : v < 2 ^ 32) :
    (p.setScSender v).syscall =
      { p.syscall with msg := { p.syscall.msg with sender := toInt v } } := by
  have hsender : (p.setScSender v).scMsg.word 0 = v := word_setWord_self p 2 1 hv
  have hreceiver : (p.setScSender v).scMsg.word 1 = p.scMsg.word 1 :=
    word_setWord_of_ne p (show (2 : Fin 8) ≠ 2 ∨ (2 : Fin 128) ≠ 1 from Or.inr (by decide)) v
  have hcontent : ∀ j : Fin 1024, (p.setScSender v).scMsg ⟨8 + j, by omega⟩ =
      p.scMsg ⟨8 + j, by omega⟩ := by
    intro j
    have hj := j.isLt
    simp only [scMsg, byte, setScSender]
    generalize hc : Fin.ofNat 8 ((0x404 + (8 + j.val)) / 512) = c
    by_cases hcb : c = 2
    · rw [hcb, setWord, Function.update_self]
      have hcv : c.val = (0x404 + (8 + j.val)) / 512 := by
        rw [← hc]
        exact Nat.mod_eq_of_lt (by omega)
      have hne : ((0x404 + (8 + j.val)) % 512) / 4 ≠ 1 := by
        rw [hcb] at hcv
        change 2 = _ at hcv
        omega
      exact if_neg hne
    · rw [setWord, Function.update_of_ne hcb]
  simp only [syscall, MsgBytes.msg, hsender, hreceiver, hcontent]
  simp only [setScSender, scType, scRetval,
    word_setWord_of_ne p (show (2 : Fin 8) ≠ 2 ∨ (0 : Fin 128) ≠ 1 from Or.inr (by decide)),
    word_setWord_of_ne p (show (4 : Fin 8) ≠ 2 ∨ (3 : Fin 128) ≠ 1 from Or.inl (by decide))]

end Page

/-! ### The machine -/

/-- The number of the page with `SYSCALL_ARG`. -/
def scPageNo : ℕ := 0x80000

/-- The variables of the kernel, the MMU and the registers. -/
structure Machine where
  procSet : Fin 8 → Process
  procCurrIdx : Fin 8
  procNprocs : ℕ
  mmu : Mmu
  mepc : UInt32
  registers : Fin 29 → UInt32

namespace Machine

/-- The kernel, with given `struct syscall`s. -/
def kernel {M : Type} (m : Machine) (mem : ℤ → Syscall M) : Kernel M :=
  { procSet := m.procSet
    procCurrIdx := m.procCurrIdx
    procNprocs := m.procNprocs
    vmPid := m.mmu.currVmPid
    mem := mem
    mepc := m.mepc
    registers := m.registers }

/-- The variables of the kernel: what it does to them is as in `Egos/Kernel.lean`. -/
def tab (m : Machine) : Kernel Unit := m.kernel fun _ => ⟨.unused, ⟨0, 0, ()⟩, 0⟩

/-- Assign to the variables of the kernel. -/
def update (m : Machine) (k : Kernel Unit) : Machine :=
  { m with procSet := k.procSet, procCurrIdx := k.procCurrIdx, procNprocs := k.procNprocs }

/-- The page with `*sc`, in the address space that is switched in. -/
def sc (m : Machine) : Page := m.mmu.mem scPageNo

/-- Assign to fields of `*sc`. -/
def setSc (m : Machine) (f : Page → Page) : Machine :=
  { m with mmu := { m.mmu with toPaging := m.mmu.toPaging.setPage scPageNo (f m.sc) } }

/-- `earth->mmu_switch` -/
def mmuSwitch (m : Machine) (pid : ℤ) : Machine := { m with mmu := m.mmu.softTlbSwitch pid }

/-- The second part of `proc_yield`. -/
def switchTo (m : Machine) (next : Fin 8) : Machine :=
  (m.update (m.tab.switchTo next)).mmuSwitch (m.procSet next).pid

/-- `proc_yield` -/
def procYield (m : Machine) : Except String Machine :=
  match m.tab.nextIdx with
  | none => .error "proc_yield: no runnable process"
  | some next => .ok ((m.update m.tab.parkCurr).switchTo next)

/-- Copy the message in the address space of `src` to the kernel stack, and from there to the
address space of `dst`. -/
def copyMsg (m : Machine) (src dst : ℤ) : Machine :=
  let m := m.mmuSwitch src
  let tmp := m.sc.scMsg
  let m := m.mmuSwitch dst
  m.setSc fun p => p.setScMsg tmp

/-- The current process waits. -/
def block (m : Machine) (f : Process → Process) : Except String Machine :=
  (m.update (m.tab.setProc m.procCurrIdx f)).procYield

/-- The message is delivered, and a process is woken up. -/
def deliver (m : Machine) (src dst woken : ℤ) : Except String Machine :=
  let m := m.copyMsg src dst
  (m.update (m.tab.procSetRunnable woken)).procYield

/-- The loop of `proc_send`, which finds the receiver. -/
def procSendTo (m : Machine) (receiver : ℤ) : Except String Machine :=
  match m.tab.findPid receiver with
  | some i =>
      if (m.procSet i).status ≠ .waitToRecv then
        m.block fun p => { p with status := .waitToSend, receiverPid := receiver }
      else m.deliver m.tab.currPid receiver receiver
  | none => .ok (m.setSc fun p => p.setScRetval (toUint (-1)))

/-- `proc_send` -/
def procSend (m : Machine) : Except String Machine :=
  let m := m.setSc fun p => p.setScSender (toUint m.tab.currPid)
  m.procSendTo (toInt m.sc.scReceiver)

/-- `proc_recv` -/
def procRecv (m : Machine) : Except String Machine :=
  let sender := m.tab.findSender
  if sender = -1 then m.block fun p => { p with status := .waitToRecv }
  else m.deliver sender m.tab.currPid sender

/-- `proc_syscall` -/
def procSyscall (m : Machine) : Except String Machine :=
  let type := syscallType m.sc.scType
  let m := m.setSc Page.taken
  match type with
  | .recv => m.procRecv
  | .send => m.procSend
  | _ => .error "proc_syscall: got unknown syscall type"

/-- `intr_entry` -/
def intrEntry (id : Kernel.IntrId) (ttyRecvIntr : Bool) (m : Machine) : Except String Machine :=
  if id = .timer ∧ m.tab.currPid < GPID_SHELL then .ok m
  else if ttyRecvIntr ∧ m.tab.currPid ≥ GPID_USER_START then .ok { m with mepc := 0x800500C }
  else
    match id with
    | .soft => m.procSyscall
    | .timer => m.procYield

/-- `kernel_entry` for an interrupt -/
def kernelEntry (id : Kernel.IntrId) (ttyRecvIntr : Bool) (m : Machine) :
    Except String Machine := do
  let m := m.update m.tab.save
  let m ← m.intrEntry id ttyRecvIntr
  return { m with
    mepc := (m.procSet m.procCurrIdx).mepc
    registers := (m.procSet m.procCurrIdx).savedRegister }

/-- `proc_free`, with the frames of the processes. -/
def procFree (m : Machine) (pid : ℤ) : Machine :=
  let mmu :=
    if pid ≠ -1 then m.mmu.mmuFree pid
    else
      (List.finRange 8).foldl (fun mmu i =>
        if (m.procSet i).pid ≥ GPID_USER_START ∧ (m.procSet i).status ≠ .unused then
          mmu.mmuFree (m.procSet i).pid
        else mmu) m.mmu
  { m.update (m.tab.procFree pid) with mmu := mmu }

end Machine

/-! ### One structure per process -/

namespace Mmu

variable {m m' : Mmu} {cur : Fin 256 → Page} {pid : ℤ} {i : Fin 256}

/-- The frame with the `struct syscall` of a process. -/
def ScFrame (m : Mmu) (pid : ℤ) (i : Fin 256) : Prop :=
  m.Owned i pid ∧ (m.table i).pageNo = scPageNo

instance (m : Mmu) (pid : ℤ) (i : Fin 256) : Decidable (m.ScFrame pid i) :=
  inferInstanceAs (Decidable (_ ∧ _))

theorem scFrame_congr (h : m'.table = m.table) (pid : ℤ) (i : Fin 256) :
    m'.ScFrame pid i ↔ m.ScFrame pid i := by
  rw [ScFrame, ScFrame, owned_congr h, h]

/-- The `struct syscall` of every process, given the contents of the frames. -/
def syscalls (m : Mmu) (cur : Fin 256 → Page) (pid : ℤ) : Syscall (Fin 1024 → UInt8) :=
  match (List.finRange 256).find? fun i => m.ScFrame pid i with
  | some i => (cur i).syscall
  | none => ⟨.unused, ⟨0, 0, fun _ => 0⟩, 0⟩

theorem syscalls_congr (h : m'.table = m.table) : m'.syscalls cur = m.syscalls cur := by
  funext pid
  have hsame : (fun i => decide (m'.ScFrame pid i)) = fun i => decide (m.ScFrame pid i) := by
    funext i
    exact decide_eq_decide.2 (scFrame_congr h pid i)
  simp only [syscalls, hsame]

/-- There is one such frame. -/
theorem TableOk.find_scFrame (h : m.TableOk) (hpid : pid ≠ 0) (hi : m.ScFrame pid i) :
    ((List.finRange 256).find? fun i => m.ScFrame pid i) = some i := by
  cases hf : (List.finRange 256).find? fun i => m.ScFrame pid i with
  | none =>
      have hnone := List.find?_eq_none.1 hf i (List.mem_finRange i)
      exact absurd hi (by simpa using hnone)
  | some j =>
      have hj : m.ScFrame pid j := by simpa using List.find?_some hf
      rw [h.inj j i pid hpid hj.1 hi.1 (hj.2.trans hi.2.symm)]

theorem TableOk.syscalls_eq (h : m.TableOk) (hpid : pid ≠ 0) (hi : m.ScFrame pid i) :
    m.syscalls cur pid = (cur i).syscall := by
  rw [syscalls, h.find_scFrame hpid hi]

/-- A change to the page of one process. -/
theorem TableOk.syscalls_update (h : m.TableOk) (hpid : pid ≠ 0) (hi : m.ScFrame pid i) (p : Page) :
    m.syscalls (Function.update cur i p) = Function.update (m.syscalls cur) pid p.syscall := by
  funext q
  by_cases hq : q = pid
  · rw [hq, Function.update_self, h.syscalls_eq hpid hi, Function.update_self]
  · rw [Function.update_of_ne hq, syscalls, syscalls]
    cases hf : (List.finRange 256).find? fun i => m.ScFrame q i with
    | none => rfl
    | some j =>
        have hj : m.ScFrame q j := by simpa using List.find?_some hf
        have hji : j ≠ i := by
          rintro rfl
          exact hq (hj.1.2.symm.trans hi.1.2)
        simp only [Function.update_of_ne hji]

theorem softTlbSwitch_currVmPid (m : Mmu) (pid : ℤ) : (m.softTlbSwitch pid).currVmPid = pid := by
  unfold Mmu.softTlbSwitch
  by_cases hcurr : pid = m.currVmPid
  · rw [if_pos hcurr, hcurr]
  · rw [if_neg hcurr]

end Mmu

namespace Machine

variable {m m' : Machine} {cur cur' : Fin 256 → Page} {pid : ℤ}

/-- **The kernel with one `struct syscall` per process.** -/
def abs (m : Machine) (cur : Fin 256 → Page) : Kernel (Fin 1024 → UInt8) :=
  m.kernel (m.mmu.syscalls cur)

/-- A step of the machine leaves the table of the frames as it is; the frames hold `cur`. -/
structure Steps (m m' : Machine) (cur : Fin 256 → Page) : Prop where
  priv : m'.mmu.Private cur
  table : m'.mmu.table = m.mmu.table

theorem Steps.trans {m₁ m₂ m₃ : Machine} (h : Steps m₁ m₂ cur) (h' : Steps m₂ m₃ cur') :
    Steps m₁ m₃ cur' :=
  ⟨h'.priv, h'.table.trans h.table⟩

/-! ### The simulation -/

/-- What the kernel reads. -/
theorem sc_eq {i : Fin 256} (h : m.mmu.Private cur) (hi : m.mmu.ScFrame m.mmu.currVmPid i) :
    m.sc = cur i := by
  rw [← h.live i hi.1, hi.2]
  rfl

/-- What the kernel writes. -/
theorem setSc_spec {i : Fin 256} {f : Page → Page}
    {g : Syscall (Fin 1024 → UInt8) → Syscall (Fin 1024 → UInt8)} (h : m.mmu.Private cur)
    (hi : m.mmu.ScFrame m.mmu.currVmPid i) (hfg : (f (cur i)).syscall = g (cur i).syscall) :
    Steps m (m.setSc f) (Function.update cur i (f (cur i))) ∧
      (m.setSc f).abs (Function.update cur i (f (cur i))) = (m.abs cur).setSc g := by
  have hwrite := h.write hi.1 (f (cur i))
  rw [hi.2] at hwrite
  refine ⟨⟨?_, rfl⟩, ?_⟩
  · rw [setSc, sc_eq h hi]
    exact hwrite
  · have hmem : (m.setSc f).mmu.syscalls (Function.update cur i (f (cur i))) =
        Function.update (m.mmu.syscalls cur) m.mmu.currVmPid (f (cur i)).syscall :=
      (Mmu.syscalls_congr rfl).trans (h.syscalls_update h.curr hi _)
    rw [abs, hmem, hfg, ← h.syscalls_eq h.curr hi]
    rfl

theorem mmuSwitch_spec (h : m.mmu.Private cur) (hpid : pid ≠ 0) :
    Steps m (m.mmuSwitch pid) cur ∧ (m.mmuSwitch pid).abs cur = (m.abs cur).mmuSwitch pid := by
  obtain ⟨hpriv, hcurr, htable, -⟩ := h.softTlbSwitch hpid
  refine ⟨⟨hpriv, htable⟩, ?_⟩
  have hmem : (m.mmuSwitch pid).mmu.syscalls cur = m.mmu.syscalls cur := Mmu.syscalls_congr htable
  have hvm : (m.mmuSwitch pid).mmu.currVmPid = pid := hcurr
  rw [abs, hmem, kernel, hvm]
  rfl

/-- Assigning to the variables of the kernel does not touch the memory. -/
theorem update_spec (h : m.mmu.Private cur) (k : Kernel Unit) : Steps m (m.update k) cur :=
  ⟨h, rfl⟩

theorem abs_parkCurr (m : Machine) (cur : Fin 256 → Page) :
    (m.update m.tab.parkCurr).abs cur = (m.abs cur).parkCurr := by
  unfold Kernel.parkCurr
  by_cases hs : m.tab.currStatus = .running
  · have hs' : (m.abs cur).currStatus = .running := hs
    rw [if_pos hs, if_pos hs']
    rfl
  · have hs' : ¬ (m.abs cur).currStatus = .running := hs
    rw [if_neg hs, if_neg hs']
    rfl

theorem switchTo_spec {next : Fin 8} (h : m.mmu.Private cur) (h0 : (m.procSet next).pid ≠ 0) :
    Steps m (m.switchTo next) cur ∧ (m.switchTo next).abs cur = (m.abs cur).switchTo next := by
  obtain ⟨hsteps, habs⟩ := mmuSwitch_spec (update_spec h (m.tab.switchTo next)).priv h0
  refine ⟨(update_spec h _).trans hsteps, habs.trans ?_⟩
  unfold Kernel.switchTo
  by_cases hs : (m.procSet next).status = .ready
  · simp [abs, kernel, tab, update, Kernel.mmuSwitch, Kernel.currStatus, Kernel.currPid, hs,
      Kernel.setProc, Kernel.procSetRunning, Kernel.procSetStatus]
  · simp [abs, kernel, tab, update, Kernel.mmuSwitch, Kernel.currStatus, Kernel.currPid, hs,
      Kernel.procSetRunning, Kernel.procSetStatus]

theorem procYield_spec (h : m.mmu.Private cur) (hk : (m.abs cur).TableOk)
    (hy : m.procYield = .ok m') :
    Steps m m' cur ∧ (m.abs cur).procYield = .ok (m'.abs cur) := by
  unfold procYield at hy
  rw [Kernel.procYield]
  have hidx : (m.abs cur).nextIdx = m.tab.nextIdx := rfl
  cases hn : m.tab.nextIdx with
  | none =>
      rw [hn] at hy
      exact absurd hy (by simp)
  | some next =>
      rw [hn] at hy
      obtain rfl := Except.ok.inj hy
      have hsched : Kernel.ProcStatus.schedulable (m.tab.procSet next).status = true := by
        simpa using List.find?_some hn
      have hused : (m.tab.procSet next).status ≠ .unused := by
        intro hs
        rw [hs] at hsched
        exact absurd hsched (by decide)
      have hpid : ((m.update m.tab.parkCurr).procSet next).pid = (m.procSet next).pid := by
        change (m.tab.parkCurr.procSet next).pid = _
        unfold Kernel.parkCurr Kernel.procSetRunnable Kernel.procSetStatus
        split
        · dsimp only
          split <;> rfl
        · rfl
      have h0 : ((m.update m.tab.parkCurr).procSet next).pid ≠ 0 := by
        rw [hpid]
        exact (hk.pos next hused).ne'
      obtain ⟨hsteps, habs⟩ := switchTo_spec (update_spec h m.tab.parkCurr).priv h0
      refine ⟨(update_spec h _).trans hsteps, ?_⟩
      rw [habs, abs_parkCurr, hidx, hn]

/-- A message is copied from one frame to another one. -/
theorem copyMsg_spec {src dst : ℤ} {i j : Fin 256} (h : m.mmu.Private cur) (hsrc : src ≠ 0)
    (hdst : dst ≠ 0) (hi : m.mmu.ScFrame src i) (hj : m.mmu.ScFrame dst j) :
    Steps m (m.copyMsg src dst) (Function.update cur j ((cur j).setScMsg (cur i).scMsg)) ∧
      (m.copyMsg src dst).abs (Function.update cur j ((cur j).setScMsg (cur i).scMsg)) =
        (m.abs cur).copyMsg src dst := by
  obtain ⟨hsteps₁, habs₁⟩ := mmuSwitch_spec h hsrc
  obtain ⟨hsteps₂, habs₂⟩ := mmuSwitch_spec hsteps₁.priv hdst
  have hi₁ : (m.mmuSwitch src).mmu.ScFrame (m.mmuSwitch src).mmu.currVmPid i := by
    have hcurr : (m.mmuSwitch src).mmu.currVmPid = src := Mmu.softTlbSwitch_currVmPid _ _
    rw [hcurr]
    exact (Mmu.scFrame_congr hsteps₁.table src i).2 hi
  have hj₂ : ((m.mmuSwitch src).mmuSwitch dst).mmu.ScFrame
      ((m.mmuSwitch src).mmuSwitch dst).mmu.currVmPid j := by
    have hcurr : ((m.mmuSwitch src).mmuSwitch dst).mmu.currVmPid = dst :=
      Mmu.softTlbSwitch_currVmPid _ _
    rw [hcurr]
    exact (Mmu.scFrame_congr (hsteps₂.table.trans hsteps₁.table) dst j).2 hj
  have htmp : ((m.abs cur).mmuSwitch src).sc.msg = (cur i).scMsg.msg := by
    change (m.mmu.syscalls cur src).msg = _
    rw [h.syscalls_eq hsrc hi]
    rfl
  obtain ⟨hsteps₃, habs₃⟩ := setSc_spec (f := fun p => p.setScMsg (cur i).scMsg)
    (g := fun sc => { sc with msg := (cur i).scMsg.msg }) hsteps₂.priv hj₂
    (Page.syscall_setScMsg _ _)
  have hcopy : m.copyMsg src dst =
      ((m.mmuSwitch src).mmuSwitch dst).setSc fun p => p.setScMsg (cur i).scMsg := by
    rw [copyMsg, sc_eq hsteps₁.priv hi₁]
  rw [hcopy]
  refine ⟨(hsteps₁.trans hsteps₂).trans hsteps₃, ?_⟩
  rw [habs₃, habs₂, habs₁, Kernel.copyMsg]
  simp only [htmp]

theorem block_spec {f : Process → Process} (h : m.mmu.Private cur)
    (hk : ((m.abs cur).setProc m.procCurrIdx f).TableOk) (hb : m.block f = .ok m') :
    Steps m m' cur ∧ ((m.abs cur).setProc m.procCurrIdx f).procYield = .ok (m'.abs cur) := by
  unfold block at hb
  have hupdate := update_spec h (m.tab.setProc m.procCurrIdx f)
  obtain ⟨hsteps, hyield⟩ := procYield_spec (m := m.update (m.tab.setProc m.procCurrIdx f))
    hupdate.priv hk hb
  exact ⟨hupdate.trans hsteps, hyield⟩

theorem deliver_spec {src dst : ℤ} {i j : Fin 256} {w : Fin 8} (h : m.mmu.Private cur)
    (hk : (m.abs cur).TableOk) (hsrc : src ≠ 0) (hdst : dst ≠ 0) (hi : m.mmu.ScFrame src i)
    (hj : m.mmu.ScFrame dst j) (hw : (m.procSet w).pid ≠ 0)
    (hd : m.deliver src dst (m.procSet w).pid = .ok m') :
    Steps m m' (Function.update cur j ((cur j).setScMsg (cur i).scMsg)) ∧
      (((m.abs cur).copyMsg src dst).procSetRunnable (m.procSet w).pid).procYield =
        .ok (m'.abs (Function.update cur j ((cur j).setScMsg (cur i).scMsg))) := by
  unfold deliver at hd
  obtain ⟨hsteps, habs⟩ := copyMsg_spec h hsrc hdst hi hj
  generalize Function.update cur j ((cur j).setScMsg (cur i).scMsg) = cur' at hsteps habs ⊢
  have hprocs : (m.copyMsg src dst).procSet = m.procSet := rfl
  have hupdate := update_spec hsteps.priv
    ((m.copyMsg src dst).tab.procSetRunnable (m.procSet w).pid)
  have hk₁ : ((m.copyMsg src dst).abs cur').TableOk := by
    rw [habs]
    exact hk.congr _ rfl rfl
  have hk₂ : (((m.copyMsg src dst).abs cur').procSetRunnable (m.procSet w).pid).TableOk := by
    rw [Kernel.procSetRunnable]
    have hset := hk₁.procSetStatus (i := w) hw .runnable
    change ((m.copyMsg src dst).abs cur').procSetStatus (m.procSet w).pid .runnable = _ at hset
    rw [hset]
    exact hk₁.setProc rfl hw
  obtain ⟨hsteps', hyield⟩ := procYield_spec
    (m := (m.copyMsg src dst).update ((m.copyMsg src dst).tab.procSetRunnable (m.procSet w).pid))
    hupdate.priv hk₂ hd
  refine ⟨(hsteps.trans hupdate).trans hsteps', ?_⟩
  rw [← habs]
  exact hyield

/-- Every process that takes part in communication has a frame for its `struct syscall`. -/
def Mapped (m : Machine) : Prop :=
  ∀ q, m.tab.view q ≠ .dead → m.tab.view q ≠ .loading → ∃ i, m.mmu.ScFrame q i

theorem procRecv_spec {c : Fin 256} (h : m.mmu.Private cur) (hk : (m.abs cur).AtUser)
    (hmapped : m.Mapped) (hc : m.mmu.ScFrame m.tab.currPid c) (hr : m.procRecv = .ok m') :
    ∃ cur', Steps m m' cur' ∧ (m.abs cur).procRecv = .ok (m'.abs cur') ∧
      (cur' = cur ∨ ∃ msg, cur' = Function.update cur c ((cur c).setScMsg msg)) := by
  unfold procRecv at hr
  rw [Kernel.procRecv]
  have hcurr0 : m.tab.currPid ≠ 0 := hk.currPid_pos.ne'
  have hfind : (m.abs cur).findSender = m.tab.findSender := rfl
  have hcpid : (m.abs cur).currPid = m.tab.currPid := rfl
  rcases Kernel.findSender_cases (m.abs cur) with ⟨hs, -⟩ | ⟨i, hst, hto, hpid⟩
  · rw [hfind] at hs ⊢
    rw [hs, if_pos rfl] at hr
    obtain ⟨hsteps, hyield⟩ := block_spec h (hk.setProc rfl hcurr0) hr
    refine ⟨cur, hsteps, ?_, Or.inl rfl⟩
    rw [hs]
    exact hyield
  · have hused : ((m.abs cur).procSet i).status ≠ .unused := by
      rw [hst]
      decide
    have hpos := hk.pos i hused
    have hview : m.tab.view ((m.abs cur).procSet i).pid = .waitSend m.tab.currPid := by
      change (m.abs cur).view _ = _
      rw [hk.view_pid hpos.ne', Process.view, hst, hto]
      rfl
    obtain ⟨f, hf⟩ := hmapped ((m.abs cur).procSet i).pid (by rw [hview]; simp)
      (by rw [hview]; simp)
    rw [hfind] at hpid ⊢
    rw [← hpid, if_neg (by omega)] at hr
    rw [← hpid, if_neg (by omega), hcpid]
    obtain ⟨hsteps, hyield⟩ :=
      deliver_spec (w := i) h hk.toTableOk hpos.ne' hcurr0 hf hc hpos.ne' hr
    exact ⟨_, hsteps, hyield, Or.inr ⟨_, rfl⟩⟩

theorem procSendTo_spec {c : Fin 256} {q : ℤ} (h : m.mmu.Private cur) (hk : (m.abs cur).AtUser)
    (hmapped : m.Mapped) (hc : m.mmu.ScFrame m.tab.currPid c) (hs : m.procSendTo q = .ok m') :
    ∃ cur', Steps m m' cur' ∧ (m.abs cur).procSendTo q = .ok (m'.abs cur') ∧
      (cur' = cur ∨ cur' = Function.update cur c ((cur c).setScRetval (toUint (-1))) ∨
        ∃ j msg, m.mmu.ScFrame q j ∧ m.tab.view q = .waitRecv ∧
          cur' = Function.update cur j ((cur j).setScMsg msg)) := by
  unfold procSendTo at hs
  rw [Kernel.procSendTo]
  have hcurr0 : m.tab.currPid ≠ 0 := hk.currPid_pos.ne'
  have hcpid : (m.abs cur).currPid = m.tab.currPid := rfl
  have hfind : (m.abs cur).findPid q = m.tab.findPid q := rfl
  rw [hfind]
  cases hf : m.tab.findPid q with
  | none =>
      rw [hf] at hs
      obtain rfl := Except.ok.inj hs
      have hvm : m.mmu.currVmPid = m.tab.currPid := hk.vm
      rw [← hvm] at hc
      obtain ⟨hsteps, habs⟩ := setSc_spec (f := fun p => p.setScRetval (toUint (-1)))
        (g := fun sc => { sc with retval := -1 }) h hc (by
          rw [Page.syscall_setScRetval _ (toUint_lt _), toInt_toUint_neg_one])
      exact ⟨_, hsteps, congrArg Except.ok habs.symm, Or.inr (Or.inl rfl)⟩
  | some i =>
      have hpid : (m.procSet i).pid = q := Kernel.findPid_some hf
      rw [hf] at hs
      by_cases hst : (m.procSet i).status = .waitToRecv
      · have hst' : ((m.abs cur).procSet i).status = .waitToRecv := hst
        have hpos : 0 < (m.procSet i).pid := hk.pos i (by rw [hst']; decide)
        have hview : m.tab.view q = .waitRecv := by
          change (m.abs cur).view q = _
          rw [← hpid]
          change (m.abs cur).view ((m.abs cur).procSet i).pid = _
          rw [hk.view_pid hpos.ne', Process.view, hst']
        obtain ⟨j, hj⟩ := hmapped q (by rw [hview]; simp) (by rw [hview]; simp)
        simp only [hst, hst', ne_eq, not_true_eq_false, if_false] at hs ⊢
        rw [hcpid]
        rw [← hpid] at hs hj ⊢
        obtain ⟨hsteps, hyield⟩ :=
          deliver_spec (w := i) h hk.toTableOk hcurr0 hpos.ne' hc hj hpos.ne' hs
        rw [← hpid] at hview
        exact ⟨_, hsteps, hyield, Or.inr (Or.inr ⟨j, _, hj, hview, rfl⟩)⟩
      · have hst' : ((m.abs cur).procSet i).status ≠ .waitToRecv := hst
        simp only [hst, hst', ne_eq, not_false_eq_true, if_true] at hs ⊢
        obtain ⟨hsteps, hyield⟩ := block_spec h (hk.setProc rfl hcurr0) hs
        exact ⟨cur, hsteps, hyield, Or.inl rfl⟩

theorem procSend_spec {c : Fin 256} (h : m.mmu.Private cur) (hk : (m.abs cur).AtUser)
    (hmapped : m.Mapped) (hc : m.mmu.ScFrame m.tab.currPid c) (hint : m.tab.currPid < 2 ^ 31)
    (hs : m.procSend = .ok m') {sent : Page}
    (hsent : sent = (cur c).setScSender (toUint m.tab.currPid)) :
    ∃ cur', Steps m m' cur' ∧ (m.abs cur).procSend = .ok (m'.abs cur') ∧
      (cur' = Function.update cur c sent ∨
        cur' = Function.update cur c (sent.setScRetval (toUint (-1))) ∨
        ∃ q j msg, m.mmu.ScFrame q j ∧ m.tab.view q = .waitRecv ∧
          cur' = Function.update (Function.update cur c sent) j
            ((Function.update cur c sent j).setScMsg msg)) := by
  have hvm : m.mmu.currVmPid = m.tab.currPid := hk.vm
  have hc' : m.mmu.ScFrame m.mmu.currVmPid c := by
    rw [hvm]
    exact hc
  have hpid : toInt (toUint m.tab.currPid) = m.tab.currPid := toInt_toUint hk.currPid_pos.le hint
  obtain ⟨hsteps₁, habs₁⟩ := setSc_spec (f := fun p => p.setScSender (toUint m.tab.currPid))
    (g := fun sc => { sc with msg := { sc.msg with sender := (m.abs cur).currPid } }) h hc' (by
      rw [Page.syscall_setScSender _ (toUint_lt _), hpid]
      rfl)
  rw [← hsent] at hsteps₁ habs₁
  unfold procSend at hs
  rw [Kernel.procSend]
  dsimp only at hs ⊢
  have hk₁ := (hk.setSc fun sc =>
    { sc with msg := { sc.msg with sender := (m.abs cur).currPid } }).1
  rw [← habs₁] at hk₁
  have hreceiver : toInt (m.setSc fun p => p.setScSender (toUint m.tab.currPid)).sc.scReceiver =
      ((m.abs cur).setSc fun sc =>
        { sc with msg := { sc.msg with sender := (m.abs cur).currPid } }).sc.msg.receiver := by
    rw [sc_eq hsteps₁.priv hc', Page.toInt_scReceiver, ← habs₁]
    exact (congrArg (fun sc => sc.msg.receiver) (hsteps₁.priv.syscalls_eq h.curr hc')).symm
  rw [hreceiver] at hs
  obtain ⟨cur', hsteps, hsend, hcur⟩ := procSendTo_spec hsteps₁.priv hk₁ hmapped hc hs
  rw [habs₁] at hsend
  refine ⟨cur', hsteps₁.trans hsteps, hsend, ?_⟩
  rcases hcur with rfl | rfl | ⟨j, msg, hj, hview, rfl⟩
  · exact Or.inl rfl
  · rw [Function.update_self, Function.update_idem]
    exact Or.inr (Or.inl rfl)
  · exact Or.inr (Or.inr ⟨_, j, msg, hj, hview, rfl⟩)

/-- **What the kernel makes of the page with the `struct syscall`** of the process that traps. -/
inductive Answered (pid : ℤ) (old : Page) : Kernel.IntrId → Page → Prop
  | timer : Answered pid old .timer old
  /-- The process sends, and waits for its receiver or has found it. -/
  | send (h : syscallType old.scType = .send) :
      Answered pid old .soft (old.taken.setScSender (toUint pid))
  /-- There is no receiver. -/
  | sendFail (h : syscallType old.scType = .send) :
      Answered pid old .soft ((old.taken.setScSender (toUint pid)).setScRetval (toUint (-1)))
  /-- The process waits for a message. -/
  | recv (h : syscallType old.scType = .recv) : Answered pid old .soft old.taken
  /-- A message has been delivered. -/
  | delivered (h : syscallType old.scType = .recv) (msg : MsgBytes) :
      Answered pid old .soft (old.taken.setScMsg msg)

/-- **What a trap does to the frames.** -/
structure Effect (m : Machine) (id : Kernel.IntrId) (cur cur' : Fin 256 → Page) : Prop where
  curr : ∀ i, m.mmu.Owned i m.tab.currPid →
    if (m.mmu.table i).pageNo = scPageNo then Answered m.tab.currPid (cur i) id (cur' i)
    else cur' i = cur i
  /-- Another process may be given a message that it waits for. -/
  other : ∀ i q, m.mmu.Owned i q → q ≠ m.tab.currPid → cur' i = cur i ∨
    (m.mmu.ScFrame q i ∧ m.tab.view q = .waitRecv ∧ ∃ msg, cur' i = (cur i).setScMsg msg)

/-- A change to the page of the current process. -/
theorem Effect.of_curr {id : Kernel.IntrId} {c : Fin 256} {p : Page} (ht : m.mmu.TableOk)
    (h0 : m.tab.currPid ≠ 0) (hc : m.mmu.ScFrame m.tab.currPid c)
    (hp : Answered m.tab.currPid (cur c) id p) : Effect m id cur (Function.update cur c p) := by
  refine ⟨?_, ?_⟩
  · intro i hi
    by_cases hic : i = c
    · rw [hic, if_pos hc.2, Function.update_self]
      exact hp
    · rw [Function.update_of_ne hic, if_neg]
      intro hpage
      exact hic (ht.inj i c _ h0 hi hc.1 (hpage.trans hc.2.symm))
  · intro i q hi hq
    have hic : i ≠ c := by
      rintro rfl
      exact hq (hi.2.symm.trans hc.1.2)
    rw [Function.update_of_ne hic]
    exact Or.inl rfl

/-- A message to another process, which waits for it. -/
theorem Effect.deliver {id : Kernel.IntrId} {j : Fin 256} {q : ℤ} (h : Effect m id cur cur')
    (hq : q ≠ m.tab.currPid) (hj : m.mmu.ScFrame q j) (hview : m.tab.view q = .waitRecv)
    (hsame : cur' j = cur j) (msg : MsgBytes) :
    Effect m id cur (Function.update cur' j ((cur' j).setScMsg msg)) := by
  refine ⟨?_, ?_⟩
  · intro i hi
    have hij : i ≠ j := by
      rintro rfl
      exact hq (hj.1.2.symm.trans hi.2)
    rw [Function.update_of_ne hij]
    exact h.curr i hi
  · intro i r hi hr
    by_cases hij : i = j
    · subst hij
      obtain rfl : r = q := hi.2.symm.trans hj.1.2
      rw [Function.update_self, hsame]
      exact Or.inr ⟨hj, hview, msg, rfl⟩
    · rw [Function.update_of_ne hij]
      exact h.other i r hi hr

theorem syscall_taken (p : Page) :
    p.taken.syscall = { p.syscall with retval := 0, type := .unused } := by
  rw [Page.taken, Page.syscall_setScType _ (by decide), Page.syscall_setScRetval _ (by decide)]
  rfl

/-- **A system call of the machine is one of the kernel.** -/
theorem procSyscall_spec (h : m.mmu.Private cur) (hk : (m.abs cur).AtUser) (hmapped : m.Mapped)
    (hint : m.tab.currPid < 2 ^ 31) (hs : m.procSyscall = .ok m') :
    ∃ cur', Steps m m' cur' ∧ (m.abs cur).procSyscall = .ok (m'.abs cur') ∧
      Effect m .soft cur cur' := by
  have h0 : m.tab.currPid ≠ 0 := hk.currPid_pos.ne'
  have hrun : m.tab.view m.tab.currPid = .run := hk.view_currPid
  obtain ⟨c, hc⟩ := hmapped m.tab.currPid (by rw [hrun]; simp) (by rw [hrun]; simp)
  have hvm : m.mmu.currVmPid = m.tab.currPid := hk.vm
  have hc' : m.mmu.ScFrame m.mmu.currVmPid c := by
    rw [hvm]
    exact hc
  unfold procSyscall at hs
  rw [sc_eq h hc'] at hs
  have htype : (m.abs cur).sc.type = syscallType (cur c).scType := by
    change (m.mmu.syscalls cur m.mmu.currVmPid).type = _
    rw [h.syscalls_eq h.curr hc']
    rfl
  obtain ⟨hsteps₁, habs₁⟩ := setSc_spec (f := Page.taken)
    (g := fun sc => { sc with retval := 0, type := .unused }) h hc' (syscall_taken (cur c))
  have hk₁ : ((m.setSc Page.taken).abs (Function.update cur c (cur c).taken)).AtUser := by
    rw [habs₁]
    exact (hk.setSc _).1
  rw [Kernel.procSyscall, htype]
  cases hty : syscallType (cur c).scType with
  | unused =>
      rw [hty] at hs
      exact absurd hs (by simp)
  | ncalls =>
      rw [hty] at hs
      exact absurd hs (by simp)
  | recv =>
      rw [hty] at hs
      obtain ⟨cur', hsteps, hrecv, hcur⟩ := procRecv_spec hsteps₁.priv hk₁ hmapped hc hs
      rw [habs₁] at hrecv
      refine ⟨cur', hsteps₁.trans hsteps, hrecv, ?_⟩
      rcases hcur with rfl | ⟨msg, rfl⟩
      · exact Effect.of_curr h.toTableOk h0 hc (.recv hty)
      · rw [Function.update_self, Function.update_idem]
        exact Effect.of_curr h.toTableOk h0 hc (.delivered hty msg)
  | send =>
      rw [hty] at hs
      obtain ⟨cur', hsteps, hsend, hcur⟩ := procSend_spec hsteps₁.priv hk₁ hmapped hc hint hs rfl
      rw [habs₁] at hsend
      simp only [Function.update_self, Function.update_idem] at hcur
      refine ⟨cur', hsteps₁.trans hsteps, hsend, ?_⟩
      have hsent := Effect.of_curr h.toTableOk h0 hc (.send hty)
      rcases hcur with rfl | rfl | ⟨q, j, msg, hj, hview, rfl⟩
      · exact hsent
      · exact Effect.of_curr h.toTableOk h0 hc (.sendFail hty)
      · -- the receiver waits, so that it is not the current process
        have hq : q ≠ m.tab.currPid := by
          rintro rfl
          exact absurd (hrun.symm.trans hview) (by simp)
        refine hsent.deliver hq hj hview ?_ msg
        refine Function.update_of_ne ?_ _ _
        rintro rfl
        exact hq (hj.1.2.symm.trans hc.1.2)

/-- A timer interrupt leaves the pages alone. -/
theorem Effect.timer (m : Machine) (cur : Fin 256 → Page) : Effect m .timer cur cur := by
  refine ⟨?_, fun _ _ _ _ => Or.inl rfl⟩
  intro i _
  split
  · exact .timer
  · rfl

theorem intrEntry_spec {id : Kernel.IntrId} (h : m.mmu.Private cur) (hk : (m.abs cur).AtUser)
    (hmapped : m.Mapped) (hint : m.tab.currPid < 2 ^ 31) (hs : m.intrEntry id false = .ok m') :
    ∃ cur', Steps m m' cur' ∧ (m.abs cur).intrEntry id false = .ok (m'.abs cur') ∧
      Effect m id cur cur' := by
  have hcurr : (m.abs cur).currPid = m.tab.currPid := rfl
  unfold intrEntry at hs
  unfold Kernel.intrEntry
  rw [hcurr]
  by_cases hserver : id = .timer ∧ m.tab.currPid < GPID_SHELL
  · rw [if_pos hserver] at hs ⊢
    obtain rfl := Except.ok.inj hs
    obtain ⟨rfl, -⟩ := hserver
    exact ⟨cur, ⟨h, rfl⟩, rfl, Effect.timer m cur⟩
  · rw [if_neg hserver] at hs ⊢
    simp only [Bool.false_eq_true, false_and, if_false] at hs ⊢
    cases id with
    | soft => exact procSyscall_spec h hk hmapped hint hs
    | timer =>
        obtain ⟨hsteps, hyield⟩ := procYield_spec h hk.toTableOk hs
        exact ⟨cur, hsteps, hyield, Effect.timer m cur⟩

/-- **A trap of the machine is one of the kernel.** -/
theorem kernelEntry_spec {id : Kernel.IntrId} (h : m.mmu.Private cur) (hk : (m.abs cur).AtUser)
    (hmapped : m.Mapped) (hint : m.tab.currPid < 2 ^ 31) (hs : m.kernelEntry id false = .ok m') :
    ∃ cur', Steps m m' cur' ∧ (m.abs cur).kernelEntry id false = .ok (m'.abs cur') ∧
      Effect m id cur cur' := by
  obtain ⟨hk₀, hsame, hcurr, -⟩ := hk.save rfl
  have hview : (m.update m.tab.save).tab.view = m.tab.view := hsame.view
  have hpid : (m.update m.tab.save).tab.currPid = m.tab.currPid := hcurr
  have hmapped₀ : (m.update m.tab.save).Mapped := by
    intro q
    rw [hview]
    exact hmapped q
  unfold kernelEntry at hs
  dsimp only at hs
  cases hi : (m.update m.tab.save).intrEntry id false with
  | error e =>
      rw [hi] at hs
      exact absurd hs (by simp [bind, Except.bind])
  | ok m₁ =>
      rw [hi] at hs
      obtain rfl := Except.ok.inj hs
      obtain ⟨cur', hsteps, hentry, heffect⟩ := intrEntry_spec (m := m.update m.tab.save) h hk₀
        hmapped₀ (by rw [hpid]; exact hint) hi
      refine ⟨cur', ⟨hsteps.priv, hsteps.table⟩, ?_, ?_⟩
      · change (do
          let k ← ((m.update m.tab.save).abs cur).intrEntry id false
          return { k with
            mepc := (k.procSet k.procCurrIdx).mepc
            registers := (k.procSet k.procCurrIdx).savedRegister }) = _
        rw [hentry]
        rfl
      · have hc := heffect.curr
        have ho := heffect.other
        rw [hpid] at hc ho
        rw [hview] at ho
        exact ⟨hc, ho⟩

/-! ### Freeing processes -/

/-- What freeing a process, or all user applications, does to the frames. -/
structure Frees (pid : ℤ) (m m' : Mmu) (cur : Fin 256 → Page) : Prop where
  priv : m'.Private cur
  curr : m'.currVmPid = m.currVmPid
  table : ∀ j, m'.table j = m.table j ∨ ((m'.table j).use = false ∧
    if pid = -1 then (m.table j).pid ≥ GPID_USER_START else (m.table j).pid = pid)

theorem procFree_frees (h : m.mmu.Private cur) (pid : ℤ) :
    Frees pid m.mmu (m.procFree pid).mmu cur := by
  by_cases hp : pid = -1
  · have hmmu : (m.procFree pid).mmu = (List.finRange 8).foldl (fun mmu i =>
        if (m.procSet i).pid ≥ GPID_USER_START ∧ (m.procSet i).status ≠ .unused then
          mmu.mmuFree (m.procSet i).pid
        else mmu) m.mmu := by
      unfold procFree
      exact if_neg (fun hne => hne hp)
    rw [hmmu]
    refine Runs.foldl_done (I := fun _ mmu => Frees pid m.mmu mmu cur) ?_ (List.finRange 8) [] m.mmu
      ⟨h, rfl, fun _ => Or.inl rfl⟩
    rintro - i mmu hmmu
    split
    · rename_i hi
      obtain ⟨hpriv, hcurr⟩ := hmmu.priv.mmuFree (m.procSet i).pid
      refine ⟨hpriv, hcurr.trans hmmu.curr, ?_⟩
      intro j
      rw [Mmu.mmuFree_table]
      by_cases hj : mmu.Owned j (m.procSet i).pid
      · rw [if_pos hj]
        refine Or.inr ⟨rfl, ?_⟩
        rcases hmmu.table j with hsame | ⟨hfree, -⟩
        · rw [if_pos hp, ← hsame, hj.2]
          exact hi.1
        · exact absurd (hj.1.symm.trans hfree) (by simp)
      · rw [if_neg hj]
        exact hmmu.table j
    · exact hmmu
  · have hmmu : (m.procFree pid).mmu = m.mmu.mmuFree pid := by
      unfold procFree
      exact if_pos hp
    obtain ⟨hpriv, hcurr⟩ := h.mmuFree pid
    rw [hmmu]
    refine ⟨hpriv, hcurr, ?_⟩
    intro j
    rw [Mmu.mmuFree_table]
    by_cases hj : m.mmu.Owned j pid
    · rw [if_pos hj, if_neg hp]
      exact Or.inr ⟨rfl, hj.2⟩
    · rw [if_neg hj]
      exact Or.inl rfl

end Machine

end Egos
