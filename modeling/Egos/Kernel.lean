/-
**The grass kernel** (`grass/process.c`, `grass/kernel.c`).

The kernel is a function of its own variables: the process table, the index of the current process
and the number of processes created.  Of the machine it uses the address space that is switched in,
the `struct syscall` that every address space holds at `SYSCALL_ARG`, the register `mepc`, and the
area of the kernel stack where the trap entry saves the other registers.  The kernel copies messages
without looking at them, so the type `M` of the contents is left open.

A call of `FATAL`, which stops the machine, is an error of `Except`.  What the kernel does to
devices (`MSIP`, the timer) and to the pages of a process (`mmu_free`) is not part of its state
here.

Main definitions:

* `Egos.Kernel` — the state of the kernel;
* `Egos.Kernel.procAlloc`, `Egos.Kernel.procFree`, `Egos.Kernel.procSetReady` — `process.c`;
* `Egos.Kernel.procYield`, `Egos.Kernel.procSend`, `Egos.Kernel.procRecv`,
  `Egos.Kernel.kernelEntry` — `kernel.c`;
* `Egos.Kernel.boot` — the state in which grass starts the first process.
-/

import Mathlib.Algebra.Group.Int.Defs
import Mathlib.Algebra.GroupWithZero.Nat
import Mathlib.Data.Fintype.Basic
import Mathlib.Data.Int.Init
import Mathlib.Logic.Function.Basic

set_option autoImplicit false

namespace Egos

open Function (update update_of_ne)

/-! ### Data -/

-- A shortcut to Lean's own instance.  As a constant it is the same term in the definitions of all
-- modules, and not a proof that is generated in each of them.
instance neZero_8 : NeZero 8 := inferInstance

/-- `enum proc_status` -/
inductive ProcStatus
  | unused
  | loading
  | ready
  | running
  | runnable
  | waitToSend
  | waitToRecv
  deriving DecidableEq, Repr

/-- `struct process` -/
structure Process where
  pid : ℤ
  status : ProcStatus
  mepc : UInt32
  savedRegister : Fin 29 → UInt32
  /-- Used when waiting to send a message. -/
  receiverPid : ℤ

/-- `enum syscall_type` -/
inductive SyscallType
  | unused
  | recv
  | send
  | ncalls
  deriving DecidableEq, Repr

/-- `struct sys_msg` -/
structure SysMsg (M : Type) where
  sender : ℤ
  receiver : ℤ
  content : M

/-- `struct syscall` -/
structure Syscall (M : Type) where
  type : SyscallType
  msg : SysMsg M
  retval : ℤ

/-- `enum grass_servers` -/
abbrev GPID_PROCESS : ℤ := 1

@[inherit_doc GPID_PROCESS]
abbrev GPID_FILE : ℤ := 2

@[inherit_doc GPID_PROCESS]
abbrev GPID_DIR : ℤ := 3

@[inherit_doc GPID_PROCESS]
abbrev GPID_SHELL : ℤ := 4

@[inherit_doc GPID_PROCESS]
abbrev GPID_USER_START : ℤ := 5

/-- The address of `argc` and `argv`. -/
def APPS_ARG : UInt32 := 0x80000000

/-- The entry point of applications. -/
def APPS_ENTRY : UInt32 := 0x08005000

/-- The state of the kernel, and what it uses of the machine. -/
structure Kernel (M : Type) where
  procSet : Fin 8 → Process
  procCurrIdx : Fin 8
  procNprocs : ℕ
  /-- The process whose address space is switched in. -/
  vmPid : ℤ
  /-- The `struct syscall` at `SYSCALL_ARG` in the address space of each process. -/
  mem : ℤ → Syscall M
  mepc : UInt32
  /-- The registers that the trap entry saved at `SAVED_REGISTER_ADDR`. -/
  registers : Fin 29 → UInt32

namespace Kernel

variable {M : Type}

/-- `curr_pid` -/
def currPid (k : Kernel M) : ℤ := (k.procSet k.procCurrIdx).pid

/-- `curr_status` -/
def currStatus (k : Kernel M) : ProcStatus := (k.procSet k.procCurrIdx).status

/-- Assign to fields of a slot of the process table. -/
def setProc (k : Kernel M) (i : Fin 8) (f : Process → Process) : Kernel M :=
  { k with procSet := update k.procSet i (f (k.procSet i)) }

/-- `*sc`, in the address space that is switched in. -/
def sc (k : Kernel M) : Syscall M := k.mem k.vmPid

/-- Assign to fields of `*sc`. -/
def setSc (k : Kernel M) (f : Syscall M → Syscall M) : Kernel M :=
  { k with mem := update k.mem k.vmPid (f k.sc) }

/-- `earth->mmu_switch` -/
def mmuSwitch (k : Kernel M) (pid : ℤ) : Kernel M := { k with vmPid := pid }

/-! ### Managing processes -/

/-- `proc_set_status` -/
def procSetStatus (k : Kernel M) (pid : ℤ) (status : ProcStatus) : Kernel M :=
  { k with procSet := fun i =>
      if (k.procSet i).pid = pid then { k.procSet i with status := status } else k.procSet i }

/-- `proc_set_ready` -/
def procSetReady (k : Kernel M) (pid : ℤ) : Kernel M := k.procSetStatus pid .ready

/-- `proc_set_running` -/
def procSetRunning (k : Kernel M) (pid : ℤ) : Kernel M := k.procSetStatus pid .running

/-- `proc_set_runnable` -/
def procSetRunnable (k : Kernel M) (pid : ℤ) : Kernel M := k.procSetStatus pid .runnable

/-- The first slot of the process table that is not in use. -/
def findUnused (k : Kernel M) : Option (Fin 8) :=
  (List.finRange 8).find? fun i => (k.procSet i).status = .unused

/-- `proc_alloc`: the counter is unsigned, and the identifier returned is signed. -/
def procAlloc (k : Kernel M) : Except String (ℤ × Kernel M) :=
  match k.findUnused with
  | some i =>
      let procNprocs : ℕ := (k.procNprocs + 1) % 2 ^ 32
      let pid := Int.bmod procNprocs (2 ^ 32)
      .ok (pid, { k.setProc i (fun p => { p with pid := pid, status := .loading }) with
        procNprocs := procNprocs })
  | none => .error "proc_alloc: reach the limit of 8 processes"

/-- Until the counter reaches the sign bit, the identifiers count the processes. -/
theorem procAlloc_eq {k : Kernel M} {i : Fin 8} (hi : k.findUnused = some i)
    (hn : k.procNprocs + 1 < 2 ^ 31) :
    k.procAlloc = .ok ((k.procNprocs + 1 : ℕ),
      { k.setProc i (fun p => { p with pid := (k.procNprocs + 1 : ℕ), status := .loading }) with
        procNprocs := k.procNprocs + 1 }) := by
  have hmod : (k.procNprocs + 1) % 2 ^ 32 = k.procNprocs + 1 := Nat.mod_eq_of_lt (by omega)
  have hpid : Int.bmod ((k.procNprocs + 1 : ℕ) : ℤ) (2 ^ 32) = (k.procNprocs + 1 : ℕ) := by
    rw [Int.bmod_eq_of_le] <;> omega
  simp only [procAlloc, hi, hmod, hpid]

/-- `proc_free`: free one process, or all user applications. -/
def procFree (k : Kernel M) (pid : ℤ) : Kernel M :=
  if pid ≠ -1 then k.procSetStatus pid .unused
  else
    { k with procSet := fun i =>
        if (k.procSet i).pid ≥ GPID_USER_START ∧ (k.procSet i).status ≠ .unused then
          { k.procSet i with status := .unused }
        else k.procSet i }

/-! ### Scheduling -/

/-- The process can be scheduled. -/
def ProcStatus.schedulable (s : ProcStatus) : Bool := s == .ready || s == .running || s == .runnable

/-- The search of `proc_yield` for the next runnable process, which ends with the current one. -/
def nextIdx (k : Kernel M) : Option (Fin 8) :=
  ((List.finRange 8).map fun i => k.procCurrIdx + (i + 1)).find? fun j =>
    ProcStatus.schedulable (k.procSet j).status

/-- The current process, if it was running, can be scheduled again. -/
def parkCurr (k : Kernel M) : Kernel M :=
  if k.currStatus = .running then k.procSetRunnable k.currPid else k

/-- The second part of `proc_yield`: switch to the process in the slot `next`. -/
def switchTo (k : Kernel M) (next : Fin 8) : Kernel M :=
  let k := { k with procCurrIdx := next }
  let k := k.mmuSwitch k.currPid
  -- call the entry point for newly created process
  let k := if k.currStatus = .ready then
      k.setProc k.procCurrIdx fun p =>
        { p with
          savedRegister := update (update p.savedRegister 8 APPS_ARG) 9
            (APPS_ARG + 4)
          mepc := APPS_ENTRY }
    else k
  k.procSetRunning k.currPid

/-- `proc_yield` -/
def procYield (k : Kernel M) : Except String (Kernel M) :=
  match k.nextIdx with
  | none => .error "proc_yield: no runnable process"
  | some next => .ok (k.parkCurr.switchTo next)

/-! ### Messages -/

/-- The first slot of the process table that holds a pid. -/
def findPid (k : Kernel M) (pid : ℤ) : Option (Fin 8) :=
  (List.finRange 8).find? fun i => (k.procSet i).pid = pid

/-- Copy the message in the address space of `src` to the kernel stack, and from there to the
address space of `dst`, which is switched in afterwards. -/
def copyMsg (k : Kernel M) (src dst : ℤ) : Kernel M :=
  let k := k.mmuSwitch src
  let tmp := k.sc.msg
  let k := k.mmuSwitch dst
  k.setSc fun sc => { sc with msg := tmp }

/-- The loop of `proc_send`, which finds the receiver. -/
def procSendTo (k : Kernel M) (receiver : ℤ) : Except String (Kernel M) :=
  match k.findPid receiver with
  | some i =>
      if (k.procSet i).status ≠ .waitToRecv then
        (k.setProc k.procCurrIdx fun p =>
          { p with status := .waitToSend, receiverPid := receiver }).procYield
      else ((k.copyMsg k.currPid receiver).procSetRunnable receiver).procYield
  | none => .ok (k.setSc fun sc => { sc with retval := -1 })

/-- `proc_send` -/
def procSend (k : Kernel M) : Except String (Kernel M) :=
  let k := k.setSc fun sc => { sc with msg := { sc.msg with sender := k.currPid } }
  k.procSendTo k.sc.msg.receiver

/-- The search of `proc_recv` for a process that waits to send to the current one: the last slot
found wins, and `-1` stands for none. -/
def findSender (k : Kernel M) : ℤ :=
  (List.finRange 8).foldl (fun sender i =>
    if (k.procSet i).status = .waitToSend ∧ (k.procSet i).receiverPid = k.currPid then
      (k.procSet i).pid
    else sender) (-1)

/-- `proc_recv` -/
def procRecv (k : Kernel M) : Except String (Kernel M) :=
  let sender := k.findSender
  if sender = -1 then
    (k.setProc k.procCurrIdx fun p => { p with status := .waitToRecv }).procYield
  else ((k.copyMsg sender k.currPid).procSetRunnable sender).procYield

/-- `proc_syscall` -/
def procSyscall (k : Kernel M) : Except String (Kernel M) :=
  let type := k.sc.type
  let k := k.setSc fun sc => { sc with retval := 0, type := .unused }
  match type with
  | .recv => k.procRecv
  | .send => k.procSend
  | _ => .error "proc_syscall: got unknown syscall type"

/-! ### Traps -/

/-- The causes of interrupts that are enabled. -/
inductive IntrId
  | soft
  | timer
  deriving DecidableEq, Repr

/-- `intr_entry`, given whether `tty_recv_intr` reports a ctrl+c. -/
def intrEntry (id : IntrId) (ttyRecvIntr : Bool) (k : Kernel M) : Except String (Kernel M) :=
  -- do not interrupt kernel processes since IO can be stateful
  if id = .timer ∧ k.currPid < GPID_SHELL then .ok k
  else if ttyRecvIntr ∧ k.currPid ≥ GPID_USER_START then .ok { k with mepc := 0x800500C }
  else
    match id with
    | .soft => k.procSyscall
    | .timer => k.procYield

/-- `kernel_entry` for an interrupt; all exceptions are fatal. -/
def kernelEntry (id : IntrId) (ttyRecvIntr : Bool) (k : Kernel M) : Except String (Kernel M) := do
  -- save process context
  let k := k.setProc k.procCurrIdx fun p => { p with mepc := k.mepc, savedRegister := k.registers }
  let k ← k.intrEntry id ttyRecvIntr
  -- restore process context
  return { k with
    mepc := (k.procSet k.procCurrIdx).mepc
    registers := (k.procSet k.procCurrIdx).savedRegister }

/-! ### The start of grass -/

/-- The state of grass before there are processes: the static variables are zeroed, and the memory
and the registers are arbitrary. -/
def start (mem : ℤ → Syscall M) (registers : Fin 29 → UInt32) : Kernel M :=
  { procSet := fun _ => ⟨0, .unused, 0, fun _ => 0, 0⟩
    procCurrIdx := 0
    procNprocs := 0
    vmPid := 0
    mem := mem
    mepc := APPS_ENTRY
    registers := registers }

/-- The state in which grass jumps to the entry of the first process, `GPID_PROCESS`. -/
def boot (mem : ℤ → Syscall M) (registers : Fin 29 → UInt32) : Kernel M :=
  { procSet := update (fun _ => ⟨0, .unused, 0, fun _ => 0, 0⟩) 0
      ⟨GPID_PROCESS, .running, 0, fun _ => 0, 0⟩
    procCurrIdx := 0
    procNprocs := 1
    vmPid := GPID_PROCESS
    mem := mem
    mepc := APPS_ENTRY
    registers := registers }

/-- The first process is allocated and set running by `main` of `grass.c`. -/
theorem procAlloc_start (mem : ℤ → Syscall M) (registers : Fin 29 → UInt32) :
    ∃ k, (start mem registers).procAlloc = .ok (GPID_PROCESS, k) ∧
      (k.procSetRunning GPID_PROCESS).mmuSwitch GPID_PROCESS = boot mem registers := by
  have hfind : (start mem registers).findUnused = some 0 := by
    simp [findUnused, start, List.finRange_succ]
  refine ⟨_, procAlloc_eq hfind (by simp [start]), ?_⟩
  simp only [procSetRunning, procSetStatus, mmuSwitch, boot, setProc, start]
  congr 1
  funext i
  by_cases hi : i = 0
  · subst hi
    simp
  · simp [update_of_ne hi]

end Kernel

end Egos
