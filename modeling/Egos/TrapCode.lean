/-
**The trap handler in assembly** (`earth/earth.s`, `earth/cpu_intr.c`).

A trap interrupts a process between two of its instructions, and jumps to `trap_from_M_mode`, which
saves the registers on the stack of the kernel, calls `trap_entry`, and loads the registers from
there again.  The kernel takes them from the stack and puts those of another process there.  Here
the processes use the registers of the processor, and the code between them and the kernel is run
instruction by instruction.

Main definitions:

* `Egos.saveContext`, `Egos.restoreContext`, `Egos.fromSMode` — the code of the handler;
* `Egos.savedReg` — the register in each word of `saved_register`;
* `Egos.Cpu`, `Egos.Cpu.step`, `Egos.Cpu.run` — the processor and the processes on it;
* `Egos.Cpu.Restored` — what the process that goes on finds in the registers.

Main results:

* `Egos.saveContext_spec`, `Egos.restoreContext_spec`, `Egos.fromSMode_spec` — what the code saves
  and restores;
* `Egos.Cpu.trap_restores` — **a process goes on with its registers**, but for `gp` and `tp`, which
  are those of the process that trapped.
-/

import Egos.Resume
import Egos.Riscv

set_option autoImplicit false

namespace Egos

open Function (update update_idem update_of_ne update_self)
open Riscv

/-- The stack of the kernel. -/
def GRASS_STACK_TOP : UInt32 := 0x80003f80

/-- Where the registers are saved, on that stack. -/
def SAVED_REGISTER_ADDR : UInt32 := GRASS_STACK_TOP - 29 * 4

/-- The order of the registers in `saved_register`. -/
def savedRegs : List Reg :=
  [.ra, .t0, .t1, .t2, .t3, .t4, .t5, .t6, .a0, .a1, .a2, .a3, .a4, .a5, .a6, .a7,
   .s0, .s1, .s2, .s3, .s4, .s5, .s6, .s7, .s8, .s9, .s10, .s11]

/-- The register in each word of `saved_register`; the last one is the stack pointer. -/
def savedReg (i : Fin 29) : Reg := (savedRegs ++ [Reg.sp]).get i

/-- Steps 1 and 2 of `trap_from_M_mode` -/
def saveContext : List Instr :=
  [.csrw .mscratch .sp,
   .lui .sp 0x80004,
   .addi .sp .sp (-128),
   .addi .sp .sp (-116),
   .sw .ra 0 .sp,
   .sw .t0 4 .sp,
   .sw .t1 8 .sp,
   .sw .t2 12 .sp,
   .sw .t3 16 .sp,
   .sw .t4 20 .sp,
   .sw .t5 24 .sp,
   .sw .t6 28 .sp,
   .sw .a0 32 .sp,
   .sw .a1 36 .sp,
   .sw .a2 40 .sp,
   .sw .a3 44 .sp,
   .sw .a4 48 .sp,
   .sw .a5 52 .sp,
   .sw .a6 56 .sp,
   .sw .a7 60 .sp,
   .sw .s0 64 .sp,
   .sw .s1 68 .sp,
   .sw .s2 72 .sp,
   .sw .s3 76 .sp,
   .sw .s4 80 .sp,
   .sw .s5 84 .sp,
   .sw .s6 88 .sp,
   .sw .s7 92 .sp,
   .sw .s8 96 .sp,
   .sw .s9 100 .sp,
   .sw .s10 104 .sp,
   .sw .s11 108 .sp,
   .csrr .t0 .mscratch,
   .sw .t0 112 .sp]

/-- Steps 4 and 5 of `trap_from_M_mode` -/
def restoreContext : List Instr :=
  [.lw .ra 0 .sp,
   .lw .t0 4 .sp,
   .lw .t1 8 .sp,
   .lw .t2 12 .sp,
   .lw .t3 16 .sp,
   .lw .t4 20 .sp,
   .lw .t5 24 .sp,
   .lw .t6 28 .sp,
   .lw .a0 32 .sp,
   .lw .a1 36 .sp,
   .lw .a2 40 .sp,
   .lw .a3 44 .sp,
   .lw .a4 48 .sp,
   .lw .a5 52 .sp,
   .lw .a6 56 .sp,
   .lw .a7 60 .sp,
   .lw .s0 64 .sp,
   .lw .s1 68 .sp,
   .lw .s2 72 .sp,
   .lw .s3 76 .sp,
   .lw .s4 80 .sp,
   .lw .s5 84 .sp,
   .lw .s6 88 .sp,
   .lw .s7 92 .sp,
   .lw .s8 96 .sp,
   .lw .s9 100 .sp,
   .lw .s10 104 .sp,
   .lw .s11 108 .sp,
   .lw .sp 112 .sp]

/-- `trap_from_S_mode`, up to `trap_from_M_mode` -/
def fromSMode : List Instr :=
  [.csrw .mscratch .t0] ++ li .t0 0x20800 ++ [.csrs .mstatus .t0, .csrr .t0 .mscratch]

/-! ### What the code does -/

theorem saveContext_eq :
    saveContext =
      [.csrw .mscratch .sp, .lui .sp 0x80004, .addi .sp .sp (-128), .addi .sp .sp (-116)] ++
        stores .sp 0 savedRegs ++ [.csrr .t0 .mscratch, .sw .t0 112 .sp] := rfl

theorem restoreContext_eq : restoreContext = loads .sp 0 savedRegs ++ [.lw .sp 112 .sp] := rfl

/-- The word `i` of the array on the stack. -/
def savedWord (m : UInt32 → UInt8) (i : Fin 29) : UInt32 :=
  loadWord m (wordAddr SAVED_REGISTER_ADDR i)

/-- A word is the stack pointer's, or that of a register of the list. -/
theorem savedReg_cases (i : Fin 29) :
    (∃ hi : i.val < savedRegs.length, savedReg i = savedRegs[i.val]) ∨
      i = 28 ∧ savedReg i = .sp := by
  by_cases hi : i.val < 28
  · exact Or.inl ⟨hi, List.getElem_append_left hi⟩
  · obtain rfl : i = 28 := Fin.ext (by have := i.isLt; change i.val = 28; omega)
    exact Or.inr ⟨rfl, rfl⟩

/-- The stack pointer is set, and the old one is in `mscratch`. -/
theorem run_enter (h : Hart) :
    run [.csrw .mscratch .sp, .lui .sp 0x80004, .addi .sp .sp (-128), .addi .sp .sp (-116)] h =
      (h.setCsr .mscratch (h.get .sp)).set .sp SAVED_REGISTER_ADDR := by
  have hsp : Reg.sp ≠ .zero := by decide
  have haddr : UInt32.ofNat (4096 * (0x80004 : BitVec 20).toNat) + sext (-128) + sext (-116) =
      SAVED_REGISTER_ADDR := by
    rw [show sext (-128) = 0xffffff80 by decide, show sext (-116) = 0xffffff8c by decide]
    decide
  rw [run_cons, run_cons, run_cons, run_cons, run_nil, Instr.exec, Instr.exec, Instr.exec,
    Instr.exec, Hart.get_set_self _ hsp, Hart.get_set_self _ hsp, haddr]
  simp only [Hart.set, update_idem]

/-- The registers are stored, and the old stack pointer after them. -/
theorem run_save (h : Hart) :
    run (stores .sp 0 savedRegs ++ [.csrr .t0 .mscratch, .sw .t0 112 .sp]) h =
      { h.set .t0 (h.csr .mscratch) with
        mem := storeWord (storeWords h.mem (h.get .sp) 0 (savedRegs.map h.get))
          (wordAddr (h.get .sp) 28) (h.csr .mscratch) } := by
  rw [run_append, run_stores .sp savedRegs 0 _ (by decide), run_cons, run_cons, run_nil,
    Instr.exec, Instr.exec, Hart.get_set_of_ne _ (by decide), Hart.get_set_self _ (by decide),
    show (112 : BitVec 12) = .ofNat 12 (4 * 28) from rfl, add_sext_ofNat _ (by decide)]
  rfl

/-- **All registers are saved**, and `t0` and `sp` are the only ones that have changed then. -/
theorem saveContext_spec (h : Hart) :
    (run saveContext h).get .sp = SAVED_REGISTER_ADDR ∧
      (∀ i, savedWord (run saveContext h).mem i = h.get (savedReg i)) ∧
      (∀ r, r ≠ .sp → r ≠ .t0 → (run saveContext h).get r = h.get r) ∧
      ∀ c, c ≠ .mscratch → (run saveContext h).csr c = h.csr c := by
  have hmap : savedRegs.map ((h.setCsr .mscratch (h.get .sp)).set .sp SAVED_REGISTER_ADDR).get =
      savedRegs.map h.get := rfl
  rw [saveContext_eq, List.append_assoc, run_append, run_enter, run_save, hmap,
    Hart.get_set_self _ (by decide)]
  refine ⟨rfl, fun i => ?_, fun r hsp ht0 => ?_, fun c hc => update_of_ne hc _ _⟩
  · rcases savedReg_cases i with ⟨hi, hreg⟩ | ⟨rfl, hreg⟩
    · have hi' : i.val < 28 := hi
      have hword := loadWord_storeWords SAVED_REGISTER_ADDR (savedRegs.map h.get) h.mem 0
        (by rw [List.length_map]; decide) i.val (by rwa [List.length_map])
      rw [Nat.zero_add, List.getElem_map] at hword
      rw [savedWord, loadWord_storeWord_of_ne _ _ _ (by omega) (by omega) (by omega), hreg]
      exact hword
    · rw [hreg]
      exact loadWord_storeWord _ _ _
  · change (((h.setCsr .mscratch (h.get .sp)).set .sp SAVED_REGISTER_ADDR).set .t0 _).get r = _
    rw [Hart.get_set_of_ne _ ht0, Hart.get_set_of_ne _ hsp, Hart.get_setCsr]

/-- **All registers are loaded** from the stack. -/
theorem restoreContext_spec {h : Hart} (hsp : h.get .sp = SAVED_REGISTER_ADDR) :
    (∀ i, (run restoreContext h).get (savedReg i) = savedWord h.mem i) ∧
      (∀ r, r ≠ .sp → r ∉ savedRegs → (run restoreContext h).get r = h.get r) ∧
      (run restoreContext h).csr = h.csr := by
  obtain ⟨⟨hmem, hcsr, -⟩, hother, hword⟩ :=
    run_loads .sp savedRegs 0 h (by decide) (by decide) (by decide) (by decide)
  have hsp' := hother .sp (by decide)
  rw [restoreContext_eq, run_append, run_cons, run_nil, Instr.exec]
  refine ⟨fun i => ?_, fun r hr hmem' => ?_, hcsr⟩
  · rcases savedReg_cases i with ⟨hi, hreg⟩ | ⟨rfl, hreg⟩
    · have hne : savedRegs[i.val] ≠ .sp := by
        intro he
        exact absurd (he ▸ List.getElem_mem hi) (show Reg.sp ∉ savedRegs by decide)
      have hload := hword i.val hi
      rw [hsp, Nat.zero_add] at hload
      rw [hreg, Hart.get_set_of_ne _ hne]
      exact hload
    · rw [hreg, Hart.get_set_self _ (by decide), hmem, hsp', hsp]
      rfl
  · rw [Hart.get_set_of_ne _ hr]
    exact hother r hmem'

/-- **A trap from S mode** keeps the registers too, so that the handler saves them. -/
theorem fromSMode_spec (h : Hart) :
    (∀ r, (run fromSMode h).get r = h.get r) ∧ (run fromSMode h).mem = h.mem ∧
      (run fromSMode h).csr .mstatus = h.csr .mstatus ||| 0x20800 := by
  have hrun : run fromSMode h =
      (((h.setCsr .mscratch (h.get .t0)).set .t0 0x20800).setCsr .mstatus
        (h.csr .mstatus ||| 0x20800)).set .t0 (h.get .t0) := by
    rw [fromSMode, run_append, run_append, run_li _ _ (by decide)]
    rfl
  rw [hrun]
  refine ⟨fun r => ?_, rfl, rfl⟩
  by_cases hr : r = .t0
  · rw [hr, Hart.get_set_self _ (by decide)]
  · rw [Hart.get_set_of_ne _ hr, Hart.get_setCsr, Hart.get_set_of_ne _ hr, Hart.get_setCsr]

/-! ### The processor -/

/-- The value of `mcause`. -/
def Kernel.IntrId.mcause : Kernel.IntrId → UInt32
  | .soft => 0x80000003
  | .timer => 0x80000007

/-- `trap_entry` tells the interrupts apart: the two that `intr_init` enables, and exceptions, which
`excp_entry` does not handle. -/
def trapEntry (mcause : UInt32) : Option Kernel.IntrId :=
  if mcause &&& 0x80000000 = 0 then none
  else if mcause &&& 0x3FF = 3 then some .soft
  else if mcause &&& 0x3FF = 7 then some .timer
  else none

theorem trapEntry_mcause (id : Kernel.IntrId) : trapEntry id.mcause = some id := by
  cases id <;> decide

/-- A trap is taken. -/
def takeTrap (id : Kernel.IntrId) (h : Hart) : Hart :=
  { (h.setCsr .mepc h.pc).setCsr .mcause id.mcause with pc := h.csr .mtvec }

/-- `mret` -/
def mret (h : Hart) : Hart := { h with pc := h.csr .mepc }

@[simp] theorem get_mret (h : Hart) (r : Reg) : (mret h).get r = h.get r := rfl

/-- The registers that a function keeps for its caller. -/
def calleeSaved : Reg → Bool
  | .sp | .gp | .tp => true
  | .s0 | .s1 | .s2 | .s3 | .s4 | .s5 | .s6 | .s7 | .s8 | .s9 | .s10 | .s11 => true
  | _ => false

/-- After the call of `trap_entry`: `kernel_entry` has copied the registers of a process to the
stack, and its program counter to `mepc`.  In the other registers and the rest of the memory it has
left `callee`. -/
def afterCall (h callee : Hart) (mepc : UInt32) (registers : Fin 29 → UInt32) : Hart :=
  { x := fun r => if calleeSaved r then h.x r else callee.x r
    csr := update h.csr .mepc mepc
    mem := storeWords callee.mem SAVED_REGISTER_ADDR 0 (List.ofFn registers)
    pc := h.pc }

/-- The processor, and the processes on it. -/
structure Cpu where
  hart : Hart
  sys : System
  /-- How each process left the processor when it trapped last. -/
  left : ℤ → Option Hart

/-- What happens to the processor. -/
inductive Cpu.Event
  /-- The current process computes. -/
  | compute (x : Reg → UInt32) (pc : UInt32)
  | trap (id : Kernel.IntrId) (callee : Hart)
  /-- The current process writes to its memory, or manages processes. -/
  | other (e : System.Event)

/-- Traps are taken by the processor. -/
def System.Event.isTrap : System.Event → Bool
  | .trap _ _ _ => true
  | _ => false

namespace Cpu

/-- **One event.** -/
def step (c : Cpu) : Event → Option Cpu
  | .compute x pc => some { c with hart := { c.hart with x := x, pc := pc } }
  | .trap id callee =>
      let h := Riscv.run saveContext (takeTrap id c.hart)
      match trapEntry (h.csr .mcause) with
      | none => none
      | some id =>
          match c.sys.step (.trap id (h.csr .mepc) (savedWord h.mem)) with
          | none => none
          | some sys =>
              some
                { hart := mret (Riscv.run restoreContext
                    (afterCall h callee sys.machine.mepc sys.machine.registers))
                  sys := sys
                  left := update c.left c.sys.currPid (some c.hart) }
  | .other e => if e.isTrap then none else (c.sys.step e).map fun sys => { c with sys := sys }

/-- A run. -/
def run (c : Cpu) (es : List Event) : Option Cpu := es.foldlM step c

/-- `main` of `grass.c` jumps to the entry of the first process. -/
def boot (sp : Spaces) (registers : Fin 29 → UInt32) (h : Hart) : Cpu :=
  { hart := { h.set .a0 APPS_ARG with pc := APPS_ENTRY }
    sys := System.boot sp registers
    left := fun _ => none }

/-- The processes that a run creates. -/
def allocs (es : List Event) : ℕ := es.countP fun e => match e with
  | .other .procAlloc => true
  | _ => false

/-- **What the process that goes on finds in the registers.** -/
structure Restored (c c' : Cpu) : Prop where
  /-- A new process starts at the entry point. -/
  ready : (c.sys.machine.procSet c'.sys.machine.procCurrIdx).status = .ready →
    c'.hart.pc = APPS_ENTRY ∧ c'.hart.get .a0 = APPS_ARG ∧ c'.hart.get .a1 = APPS_ARG + 4
  /-- Any other process goes on where it stopped. -/
  started : (c.sys.machine.procSet c'.sys.machine.procCurrIdx).status ≠ .ready →
    ∃ h, c'.left c'.sys.currPid = some h ∧ c'.hart.pc = h.pc ∧
      ∀ r, r ≠ .gp → r ≠ .tp → c'.hart.get r = h.get r
  /-- Two registers are not saved. -/
  gp : c'.hart.get .gp = c.hart.get .gp
  tp : c'.hart.get .tp = c.hart.get .tp

variable {c c' : Cpu}

/-! ### A trap -/

/-- A register is saved, but for three of them. -/
theorem reg_cases (r : Reg) : r = .zero ∨ r = .gp ∨ r = .tp ∨ ∃ i, savedReg i = r := by
  have hmem : r = .zero ∨ r = .gp ∨ r = .tp ∨ r ∈ savedRegs ++ [Reg.sp] := by
    cases r <;> decide
  exact hmem.imp_right (Or.imp_right (Or.imp_right List.mem_iff_get.1))

/-- The context that the kernel has put on the stack. -/
theorem savedWord_afterCall (h callee : Hart) (mepc : UInt32) (registers : Fin 29 → UInt32)
    (i : Fin 29) : savedWord (afterCall h callee mepc registers).mem i = registers i := by
  have hword := loadWord_storeWords SAVED_REGISTER_ADDR (List.ofFn registers) callee.mem 0
    (by rw [List.length_ofFn]; decide) i.val (by rw [List.length_ofFn]; exact i.isLt)
  rw [Nat.zero_add, List.getElem_ofFn] at hword
  exact hword

/-- A register that a function keeps. -/
theorem get_afterCall (h callee : Hart) (mepc : UInt32) (registers : Fin 29 → UInt32) {r : Reg}
    (hr : calleeSaved r = true) : (afterCall h callee mepc registers).get r = h.get r := by
  simp only [Hart.get, afterCall, hr, if_true]

/-- **A trap of the processor** is one of the system, with the program counter and the registers of
the process; and it returns with those that the system has selected. -/
theorem step_trap {id : Kernel.IntrId} {callee : Hart} (hs : c.step (.trap id callee) = some c') :
    c.sys.step (.trap id c.hart.pc fun i => c.hart.get (savedReg i)) = some c'.sys ∧
      c'.left = update c.left c.sys.currPid (some c.hart) ∧
      c'.hart.pc = c'.sys.machine.mepc ∧
      (∀ i, c'.hart.get (savedReg i) = c'.sys.machine.registers i) ∧
      c'.hart.get .gp = c.hart.get .gp ∧ c'.hart.get .tp = c.hart.get .tp := by
  obtain ⟨hsp, hsaved, hkept, hcsr⟩ := saveContext_spec (takeTrap id c.hart)
  have hmcause : (Riscv.run saveContext (takeTrap id c.hart)).csr .mcause = id.mcause :=
    (hcsr .mcause (by decide)).trans rfl
  have hmepc : (Riscv.run saveContext (takeTrap id c.hart)).csr .mepc = c.hart.pc :=
    (hcsr .mepc (by decide)).trans rfl
  have hregs : savedWord (Riscv.run saveContext (takeTrap id c.hart)).mem =
      fun i => c.hart.get (savedReg i) := funext hsaved
  have hgp := hkept .gp (by decide) (by decide)
  have htp := hkept .tp (by decide) (by decide)
  rw [step, hmcause, trapEntry_mcause, hmepc, hregs] at hs
  dsimp only at hs
  cases hsys : c.sys.step (.trap id c.hart.pc fun i => c.hart.get (savedReg i)) with
  | none => simp [hsys] at hs
  | some sys =>
      rw [hsys] at hs
      obtain rfl := Option.some.inj hs
      generalize Riscv.run saveContext (takeTrap id c.hart) = h at *
      obtain ⟨hword, hother, hcsr'⟩ := restoreContext_spec
        (h := afterCall h callee sys.machine.mepc sys.machine.registers)
        ((get_afterCall _ _ _ _ rfl).trans hsp)
      refine ⟨rfl, rfl, congrFun hcsr' .mepc, fun i => ?_, ?_, ?_⟩
      · rw [get_mret, hword, savedWord_afterCall]
      · rw [get_mret, hother .gp (by decide) (by decide), get_afterCall _ _ _ _ rfl, hgp]
        rfl
      · rw [get_mret, hother .tp (by decide) (by decide), get_afterCall _ _ _ _ rfl, htp]
        rfl

/-! ### Runs -/

/-- What is noted of the last trap of a process is how it left the processor. -/
def Noted (c : Cpu) : Prop :=
  ∀ q, (c.sys.stop q).map (fun st => (st.mepc, st.registers)) =
    (c.left q).map fun h => (h.pc, fun i => h.get (savedReg i))

/-- Only a trap is noted. -/
theorem stop_of_not_trap {s s' : System} {e : System.Event} (he : e.isTrap = false)
    (hs : s.step e = some s') : s'.stop = s.stop := by
  unfold System.step at hs
  cases e with
  | trap => simp [System.Event.isTrap] at he
  | _ =>
      dsimp only at hs
      split at hs <;> first
        | (split at hs <;> first | (obtain rfl := Option.some.inj hs; rfl) | simp at hs)
        | (obtain rfl := Option.some.inj hs; rfl)
        | simp at hs

theorem Noted.step {e : Event} (h : c.Noted) (hs : c.step e = some c') : c'.Noted := by
  cases e with
  | compute x pc =>
      obtain rfl := Option.some.inj hs
      exact h
  | trap id callee =>
      obtain ⟨hsys, hleft, -⟩ := step_trap hs
      have hstop : ∃ mem, c'.sys.stop = update c.sys.stop c.sys.currPid
          (some ⟨id, c.hart.pc, fun i => c.hart.get (savedReg i), mem⟩) := by
        unfold System.step at hsys
        dsimp only at hsys
        split at hsys
        · rw [← Option.some.inj hsys]
          exact ⟨_, rfl⟩
        · simp at hsys
      obtain ⟨mem, hstop⟩ := hstop
      intro q
      rw [hstop, hleft]
      by_cases hq : q = c.sys.currPid
      · rw [hq, update_self, update_self]
        rfl
      · rw [update_of_ne hq, update_of_ne hq]
        exact h q
  | other e =>
      rw [Cpu.step] at hs
      split at hs
      · simp at hs
      · rename_i he
        obtain ⟨sys, hsys, rfl⟩ := Option.map_eq_some_iff.1 hs
        intro q
        rw [stop_of_not_trap (Bool.eq_false_of_not_eq_true he) hsys]
        exact h q

/-- **A run of the processor** is one of the system. -/
theorem run_sys : ∀ (es : List Event) (c : Cpu), c.Noted → c.run es = some c' →
    c'.Noted ∧ ∃ es', c.sys.run es' = some c'.sys ∧ System.allocs es' = allocs es := by
  intro es
  induction es with
  | nil =>
      intro c h hrun
      obtain rfl := Option.some.inj hrun
      exact ⟨h, [], rfl, rfl⟩
  | cons e es ih =>
      intro c h hrun
      rw [run, List.foldlM_cons] at hrun
      obtain ⟨c₁, h₁, hrest⟩ := Option.bind_eq_some_iff.1 hrun
      obtain ⟨hnoted, es', hrun', hallocs⟩ := ih c₁ (h.step h₁) hrest
      refine ⟨hnoted, ?_⟩
      cases e with
      | compute x pc =>
          obtain rfl := Option.some.inj h₁
          exact ⟨es', hrun', hallocs⟩
      | trap id callee =>
          obtain ⟨hsys, -⟩ := step_trap h₁
          refine ⟨.trap id c.hart.pc (fun i => c.hart.get (savedReg i)) :: es', ?_, hallocs⟩
          rw [System.run, List.foldlM_cons, hsys]
          exact hrun'
      | other e =>
          rw [step] at h₁
          split at h₁
          · simp at h₁
          · obtain ⟨sys, hsys, rfl⟩ := Option.map_eq_some_iff.1 h₁
            refine ⟨e :: es', ?_, ?_⟩
            · rw [System.run, List.foldlM_cons, hsys]
              exact hrun'
            · cases e <;> simp [System.allocs, allocs] at hallocs ⊢ <;> exact hallocs

/-- **A process goes on with its registers.**  In every run, as long as the pids do not wrap, the
handler returns to a process that is new and finds its arguments in `a0` and `a1`, or to one that
finds the program counter and the registers with which it trapped.  The exceptions are `gp` and
`tp`: they are not saved, and are those of the process that was interrupted. -/
theorem trap_restores (p : Paging) (ops : List Spaces.Op) {sp : Spaces} {i : Fin 256}
    (hload : (Spaces.start p).run ops = some sp) (hfirst : sp.mmu.ScFrame GPID_PROCESS i)
    (registers : Fin 29 → UInt32) (h : Hart) (es : List Event) (hallocs : 1 + allocs es < 2 ^ 31)
    (hrun : (boot sp registers h).run es = some c) {id : Kernel.IntrId} {callee : Hart}
    (htrap : c.step (.trap id callee) = some c') : Restored c c' := by
  have hboot := System.boot_ok ((Spaces.start_ok p).run hload) hfirst registers
  obtain ⟨hnoted, es', hrun', hallocs'⟩ := run_sys es _ (fun _ => rfl) hrun
  have hroom : 1 + System.allocs es' < 2 ^ 31 := by rwa [hallocs']
  obtain ⟨⟨cur, hok⟩, hn⟩ := hboot.run hroom hrun'
  obtain ⟨hsys, -, hpc, hregs, hgp, htp⟩ := step_trap htrap
  obtain ⟨-, hret, -⟩ := hok.trap hn hsys
  refine ⟨fun hready => ?_, fun hstarted => ?_, hgp, htp⟩
  · obtain ⟨hmepc, h8, h9, -⟩ := hret.ready hready
    exact ⟨hpc.trans hmepc, (hregs 8).trans h8, (hregs 9).trans h9⟩
  · obtain ⟨st, hst, hmepc, hregisters, -⟩ := hret.started hstarted
    have hleft := (hnoted.step htrap) c'.sys.currPid
    rw [hst] at hleft
    obtain ⟨h, hh, heq⟩ := Option.map_eq_some_iff.1 hleft.symm
    obtain ⟨hpc', hregs'⟩ := Prod.mk.inj heq
    refine ⟨h, hh, (hpc.trans hmepc).trans hpc'.symm, fun r hrgp hrtp => ?_⟩
    rcases reg_cases r with rfl | rfl | rfl | ⟨i, rfl⟩
    · rfl
    · exact absurd rfl hrgp
    · exact absurd rfl hrtp
    · rw [hregs i, hregisters, ← congrFun hregs' i]

/-- A processor with cleared registers and memory. -/
def clearedHart : Hart := ⟨fun _ => 0, fun _ => 0, fun _ => 0, 0⟩

/-- The first process creates another one, waits for a message at 0x08005100 with 1 in its
registers, and gets one from the new process, which has 2 in its registers. -/
def waitAndSend : List Event :=
  [.other .procAlloc, .other .mmuAlloc, .other (.softTlbMap 2 0x80000 1), .other (.procSetReady 2),
   .other (.write 0 fun _ => System.callPage 1 0), .compute (fun _ => 1) 0x08005100,
   .trap .soft clearedHart, .other (.write 1 fun _ => System.callPage 2 1),
   .compute (fun _ => 2) 0x08005200]

set_option maxRecDepth 100000 in
/-- The first process goes on. -/
theorem trap_restores_waitAndSend :
    ∃ sp c c', (Spaces.start (Paging.board .arty fun _ => 0)).run System.firstPage = some sp ∧
      (boot sp (fun _ => 0) clearedHart).run waitAndSend = some c ∧ c.sys.currPid = 2 ∧
      c.step (.trap .soft clearedHart) = some c' ∧ c'.sys.currPid = 1 ∧ Restored c c' := by
  have hrun : ((Spaces.start (Paging.board .arty fun _ => 0)).run System.firstPage).any (fun sp =>
      decide (sp.mmu.ScFrame GPID_PROCESS 0) &&
        ((boot sp (fun _ => 0) clearedHart).run waitAndSend).any (fun c =>
          decide (c.sys.currPid = 2) &&
            (c.step (.trap .soft clearedHart)).any (fun c' => c'.sys.currPid = 1))) = true := by
    decide +kernel
  obtain ⟨sp, hsp, hrun⟩ := (Option.any_eq_true _ _).1 hrun
  obtain ⟨hframe, hrun⟩ := Bool.and_eq_true_iff.1 hrun
  obtain ⟨c, hc, hrun⟩ := (Option.any_eq_true _ _).1 hrun
  obtain ⟨hcurr, hrun⟩ := Bool.and_eq_true_iff.1 hrun
  obtain ⟨c', hc', hcurr'⟩ := (Option.any_eq_true _ _).1 hrun
  exact ⟨sp, c, c', hsp, hc, of_decide_eq_true hcurr, hc', of_decide_eq_true hcurr',
    trap_restores _ _ hsp (of_decide_eq_true hframe) _ _ waitAndSend (by decide) hc hc'⟩

end Cpu

end Egos
