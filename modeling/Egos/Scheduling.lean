/-
**Round-robin scheduling** (`proc_yield` of `grass/kernel.c`).

`proc_yield` is called by the timer interrupt, by `proc_send` and by `proc_recv`.  Between two
calls, the status of any process may change, but `proc_curr_idx` is only assigned by `proc_yield`,
so that the next scan starts after the slot that the last one has selected.

Main definitions:

* `Egos.Kernel.Op`, `Egos.Kernel.step` — runs of the kernel, with processes that do anything;
* `Egos.Kernel.yieldCall`, `Egos.Kernel.calls` — the states in which `proc_yield` is called;
* `Egos.Kernel.callsBefore` — the calls of a run before a slot is selected.

Main results:

* `Egos.Kernel.procYield_selects` — `proc_yield` is a scan of the process table;
* `Egos.Kernel.step_of_call`, `Egos.Kernel.step_of_no_call` — `proc_yield` is called in these
  states, and nothing else assigns the current slot;
* `Egos.Kernel.round_robin` — **a slot that stays ready or runnable is selected by the eighth call
  at the latest, and no slot is selected twice before**.
-/

import Mathlib.Data.Fin.VecNotation
import Egos.Ipc
import Egos.RoundRobin

set_option autoImplicit false

namespace Egos

namespace Kernel

variable {M : Type}

/-! ### Runs of the kernel -/

/-- What can happen to the kernel. -/
inductive Op (M : Type)
  /-- The processes run, which changes memory and registers. -/
  | user (mem : ℤ → Syscall M) (mepc : UInt32) (registers : Fin 29 → UInt32)
  | kernelEntry (id : IntrId) (ttyRecvIntr : Bool)
  /-- The functions of the grass interface that manage processes. -/
  | procAlloc
  | procSetReady (pid : ℤ)
  | procFree (pid : ℤ)

/-- The state afterwards, unless the kernel stops. -/
def step (k : Kernel M) : Op M → Option (Kernel M)
  | .user mem mepc registers => some { k with mem := mem, mepc := mepc, registers := registers }
  | .kernelEntry id tty =>
      match k.kernelEntry id tty with
      | .ok k' => some k'
      | .error _ => none
  | .procAlloc =>
      match k.procAlloc with
      | .ok (_, k') => some k'
      | .error _ => none
  | .procSetReady pid => some (k.procSetReady pid)
  | .procFree pid => some (k.procFree pid)

/-- The runs in which processes use the interface of grass are runs of the kernel. -/
theorem exists_op {A R : Type} {cp : Memcpy A M R} {s s' : Sys A M R} {l : Label A}
    (h : s.step cp l = some s') : ∃ op, s.kernel.step op = some s'.kernel := by
  cases l with
  | sysSend q a =>
      rw [Sys.step] at h
      split at h
      · obtain rfl := Option.some.inj h
        rw [Sys.sysSend]
        split
        · exact ⟨.user s.kernel.mem s.kernel.mepc s.kernel.registers, rfl⟩
        · exact ⟨.user _ s.kernel.mepc s.kernel.registers, rfl⟩
      · cases h
  | sysRecv size =>
      rw [Sys.step] at h
      split at h
      · obtain rfl := Option.some.inj h
        rw [Sys.sysRecv]
        split
        · exact ⟨.user s.kernel.mem s.kernel.mepc s.kernel.registers, rfl⟩
        · exact ⟨.user _ s.kernel.mepc s.kernel.registers, rfl⟩
      · cases h
  | intr id tty =>
      refine ⟨.kernelEntry id tty, ?_⟩
      rw [step, Sys.step_intr h]
  | ret =>
      refine ⟨.user s.kernel.mem s.kernel.mepc s.kernel.registers, ?_⟩
      rw [Sys.step, Sys.ret] at h
      split at h
      · split at h
        · obtain rfl := Option.some.inj h
          rfl
        · obtain rfl := Option.some.inj h
          rfl
        · cases h
      · cases h
  | procAlloc =>
      refine ⟨.procAlloc, ?_⟩
      rw [Sys.step] at h
      split at h
      · split at h
        · rename_i hk
          obtain rfl := Option.some.inj h
          rw [step, hk]
        · cases h
      · cases h
  | procSetReady pid =>
      rw [Sys.step] at h
      split at h
      · obtain rfl := Option.some.inj h
        exact ⟨.procSetReady pid, rfl⟩
      · cases h
  | procFree pid =>
      rw [Sys.step] at h
      split at h
      · obtain rfl := Option.some.inj h
        exact ⟨.procFree pid, rfl⟩
      · cases h

/-! ### The calls of `proc_yield` -/

/-- The state in which the loop of `proc_send` calls `proc_yield`, if it finds the receiver. -/
def sendToCall (k : Kernel M) (receiver : ℤ) : Option (Kernel M) :=
  (k.findPid receiver).map fun i =>
    if (k.procSet i).status ≠ .waitToRecv then
      k.setProc k.procCurrIdx fun p => { p with status := .waitToSend, receiverPid := receiver }
    else (k.copyMsg k.currPid receiver).procSetRunnable receiver

/-- The state in which `proc_send` calls `proc_yield`, if it finds the receiver. -/
def sendCall (k : Kernel M) : Option (Kernel M) :=
  let k := k.setSc fun sc => { sc with msg := { sc.msg with sender := k.currPid } }
  k.sendToCall k.sc.msg.receiver

/-- The state in which `proc_recv` calls `proc_yield`. -/
def recvCall (k : Kernel M) : Kernel M :=
  let sender := k.findSender
  if sender = -1 then k.setProc k.procCurrIdx fun p => { p with status := .waitToRecv }
  else (k.copyMsg sender k.currPid).procSetRunnable sender

/-- The state in which `proc_syscall` calls `proc_yield`, if it does. -/
def syscallCall (k : Kernel M) : Option (Kernel M) :=
  let type := k.sc.type
  let k := k.setSc fun sc => { sc with retval := 0, type := .unused }
  match type with
  | .recv => some k.recvCall
  | .send => k.sendCall
  | _ => none

/-- The state in which `intr_entry` calls `proc_yield`, if it does. -/
def intrCall (id : IntrId) (ttyRecvIntr : Bool) (k : Kernel M) : Option (Kernel M) :=
  if id = .timer ∧ k.currPid < GPID_SHELL then none
  else if ttyRecvIntr ∧ k.currPid ≥ GPID_USER_START then none
  else
    match id with
    | .soft => k.syscallCall
    | .timer => some k

/-- **The state in which `proc_yield` is called**, if it is called in the step. -/
def yieldCall (k : Kernel M) : Op M → Option (Kernel M)
  | .kernelEntry id tty =>
      (k.setProc k.procCurrIdx fun p =>
        { p with mepc := k.mepc, savedRegister := k.registers }).intrCall id tty
  | _ => none

/-- **The states in which `proc_yield` is called** in a run, one after the other. -/
def calls (k : Kernel M) : List (Op M) → List (Kernel M)
  | [] => []
  | op :: ops =>
      (k.yieldCall op).toList ++
        match k.step op with
        | some k' => k'.calls ops
        | none => []

/-- The calls of a run before the slot `p` is selected. -/
def callsBefore (k : Kernel M) (p : Fin 8) (ops : List (Op M)) : List (Kernel M) :=
  (k.calls ops).takeWhile fun k₁ => k₁.nextIdx ≠ some p

/-! ### What a step does -/

/-- `proc_yield` scans the process table, starting after the current slot. -/
theorem nextIdx_eq_scan (k : Kernel M) :
    k.nextIdx = RoundRobin.scan (fun j => ProcStatus.schedulable (k.procSet j).status)
      k.procCurrIdx := rfl

theorem procCurrIdx_switchTo (k : Kernel M) (next : Fin 8) :
    (k.switchTo next).procCurrIdx = next := by
  rw [switchTo]
  dsimp only [procSetRunning, procSetStatus]
  split
  · rfl
  · rfl

/-- **`proc_yield` switches to the slot that it has found.** -/
theorem procYield_selects {k k' : Kernel M} (h : k.procYield = .ok k') :
    k.nextIdx = some k'.procCurrIdx := by
  obtain ⟨next, hnext, -, rfl⟩ := procYield_cases h
  rw [hnext, procCurrIdx_switchTo]

/-- The result of a part of the kernel that calls `proc_yield` in the given state, or not at all. -/
def Yields (k : Kernel M) (result : Except String (Kernel M)) : Option (Kernel M) → Prop
  | some k₁ => result = k₁.procYield ∧ k₁.procCurrIdx = k.procCurrIdx
  | none => ∀ k', result = .ok k' → k'.procCurrIdx = k.procCurrIdx

section Calls

variable (k : Kernel M)

/-- Only the current slot of the state before matters. -/
theorem Yields.congr {k k₀ : Kernel M} {result : Except String (Kernel M)}
    {call : Option (Kernel M)} (h : k₀.Yields result call) (hidx : k₀.procCurrIdx = k.procCurrIdx) :
    k.Yields result call := by
  cases call with
  | none => exact fun k' hok => (h k' hok).trans hidx
  | some k₁ => exact ⟨h.1, h.2.trans hidx⟩

theorem procRecv_yields : k.Yields k.procRecv (some k.recvCall) := by
  rw [procRecv, recvCall]
  split
  · exact ⟨rfl, rfl⟩
  · exact ⟨rfl, rfl⟩

theorem procSendTo_yields (receiver : ℤ) :
    k.Yields (k.procSendTo receiver) (k.sendToCall receiver) := by
  rw [procSendTo, sendToCall]
  cases k.findPid receiver with
  | none =>
      rintro k' hok
      obtain rfl := Except.ok.inj hok
      rfl
  | some i =>
      dsimp only [Option.map_some]
      split
      · exact ⟨rfl, rfl⟩
      · exact ⟨rfl, rfl⟩

theorem procSend_yields : k.Yields k.procSend k.sendCall :=
  (procSendTo_yields (k.setSc _) _).congr rfl

theorem procSyscall_yields : k.Yields k.procSyscall k.syscallCall := by
  rw [procSyscall, syscallCall]
  cases k.sc.type with
  | recv => exact (procRecv_yields _).congr rfl
  | send => exact (procSend_yields _).congr rfl
  | unused =>
      intro k' hok
      cases hok
  | ncalls =>
      intro k' hok
      cases hok

theorem intrEntry_yields (id : IntrId) (tty : Bool) :
    k.Yields (k.intrEntry id tty) (k.intrCall id tty) := by
  unfold intrEntry intrCall
  split
  · intro k' hok
    rw [Except.ok.inj hok]
  · split
    · rintro k' hok
      obtain rfl := Except.ok.inj hok
      rfl
    · cases id with
      | soft => exact k.procSyscall_yields
      | timer => exact ⟨rfl, rfl⟩

/-- The context is saved and restored around the handling of an interrupt. -/
theorem step_kernelEntry {id : IntrId} {tty : Bool} {k k' : Kernel M}
    (h : k.step (.kernelEntry id tty) = some k') :
    ∃ k₂, (k.setProc k.procCurrIdx fun p =>
        { p with mepc := k.mepc, savedRegister := k.registers }).intrEntry id tty = .ok k₂ ∧
      k'.procCurrIdx = k₂.procCurrIdx := by
  rw [step, kernelEntry] at h
  cases hentry : (k.setProc k.procCurrIdx fun p =>
      { p with mepc := k.mepc, savedRegister := k.registers }).intrEntry id tty with
  | error e =>
      rw [hentry] at h
      cases h
  | ok k₂ =>
      rw [hentry] at h
      obtain rfl := Option.some.inj h
      exact ⟨k₂, rfl, rfl⟩

variable {k} {k' k₁ : Kernel M} {op : Op M}

/-- **A step with a call of `proc_yield`** ends at the slot that the scan has found; the scan starts
after the slot that is current before the step. -/
theorem step_of_call (h : k.yieldCall op = some k₁) :
    k₁.procCurrIdx = k.procCurrIdx ∧
      ∀ k', k.step op = some k' → k₁.nextIdx = some k'.procCurrIdx := by
  cases op with
  | kernelEntry id tty =>
      have hyields := intrEntry_yields (k.setProc k.procCurrIdx fun p =>
        { p with mepc := k.mepc, savedRegister := k.registers }) id tty
      rw [show intrCall id tty _ = some k₁ from h] at hyields
      obtain ⟨hentry, hidx⟩ := hyields
      refine ⟨hidx, fun k' hs => ?_⟩
      obtain ⟨k₂, hk₂, hidx'⟩ := step_kernelEntry hs
      rw [hidx']
      exact procYield_selects (hentry.symm.trans hk₂)
  | user mem mepc registers => cases h
  | procAlloc => cases h
  | procSetReady pid => cases h
  | procFree pid => cases h

/-- **A step without a call of `proc_yield`** does not change the current slot. -/
theorem step_of_no_call (h : k.yieldCall op = none) (hs : k.step op = some k') :
    k'.procCurrIdx = k.procCurrIdx := by
  cases op with
  | kernelEntry id tty =>
      have hyields := intrEntry_yields (k.setProc k.procCurrIdx fun p =>
        { p with mepc := k.mepc, savedRegister := k.registers }) id tty
      rw [show intrCall id tty _ = none from h] at hyields
      obtain ⟨k₂, hk₂, hidx⟩ := step_kernelEntry hs
      exact hidx.trans (hyields k₂ hk₂)
  | user mem mepc registers =>
      obtain rfl := Option.some.inj hs
      rfl
  | procAlloc =>
      rw [step, procAlloc] at hs
      cases hfind : k.findUnused with
      | none =>
          rw [hfind] at hs
          cases hs
      | some i =>
          rw [hfind] at hs
          obtain rfl := Option.some.inj hs
          rfl
  | procSetReady pid =>
      obtain rfl := Option.some.inj hs
      rfl
  | procFree pid =>
      obtain rfl := Option.some.inj hs
      rw [procFree]
      split
      · rfl
      · rfl

end Calls

/-! ### Whole runs -/

/-- The status of a process that waits for its turn. -/
def Waits (k : Kernel M) (p : Fin 8) : Prop :=
  (k.procSet p).status = .ready ∨ (k.procSet p).status = .runnable

instance (k : Kernel M) (p : Fin 8) : Decidable (k.Waits p) := inferInstanceAs (Decidable (_ ∨ _))

/-- A call of `proc_yield` while a process waits for its turn. -/
theorem Waits.exists_passes {k : Kernel M} {p : Fin 8} (h : k.Waits p) :
    ∃ j, k.nextIdx = some j ∧ RoundRobin.Passes p k.procCurrIdx j := by
  have hready : ProcStatus.schedulable (k.procSet p).status = true := by
    rcases h with h | h
    · rw [h]
      rfl
    · rw [h]
      rfl
  obtain ⟨j, hj⟩ := RoundRobin.exists_scan
    (fun j => ProcStatus.schedulable (k.procSet j).status) hready k.procCurrIdx
  exact ⟨j, (nextIdx_eq_scan k).trans hj, _, hready, hj⟩

/-- **The selections before a slot is selected** that waits for its turn at every call: every scan
starts where the one before has ended. -/
theorem exists_chain {p : Fin 8} (ops : List (Op M)) :
    ∀ {k : Kernel M}, (∀ k₁ ∈ k.callsBefore p ops, k₁.Waits p) →
      ∃ js, (k.callsBefore p ops).map nextIdx = js.map some ∧ p ∉ js ∧
        List.IsChain (RoundRobin.Passes p) (k.procCurrIdx :: js) := by
  induction ops with
  | nil => exact fun _ => ⟨[], rfl, List.not_mem_nil, List.isChain_singleton _⟩
  | cons op ops ih =>
      intro k hwaits
      unfold callsBefore at hwaits ⊢
      rw [calls] at hwaits ⊢
      cases hcall : k.yieldCall op with
      | none =>
          rw [hcall] at hwaits
          cases hstep : k.step op with
          | none => exact ⟨[], rfl, List.not_mem_nil, List.isChain_singleton _⟩
          | some k' =>
              rw [hstep] at hwaits
              rw [← step_of_no_call hcall hstep]
              exact ih hwaits
      | some k₁ =>
          rw [hcall] at hwaits
          rw [Option.toList_some, List.singleton_append] at hwaits ⊢
          obtain ⟨hidx, hnext⟩ := step_of_call hcall
          by_cases hp : k₁.nextIdx = some p
          · -- The slot is selected, and the span ends.
            rw [List.takeWhile_cons_of_neg (by simpa using hp)]
            exact ⟨[], rfl, List.not_mem_nil, List.isChain_singleton _⟩
          · rw [List.takeWhile_cons_of_pos (by simpa using hp)] at hwaits ⊢
            obtain ⟨j, hj, hpasses⟩ := (hwaits k₁ List.mem_cons_self).exists_passes
            rw [hidx] at hpasses
            have hjp : j ≠ p := fun h => hp (h ▸ hj)
            cases hstep : k.step op with
            | none =>
                refine ⟨[j], ?_, ?_, ?_⟩
                · rw [List.takeWhile_nil, List.map_singleton, hj]
                  rfl
                · exact fun h => hjp (List.mem_singleton.1 h).symm
                · exact List.isChain_cons_cons.2 ⟨hpasses, List.isChain_singleton _⟩
            | some k' =>
                rw [hstep] at hwaits
                obtain ⟨js, hjs, hpjs, hchain⟩ :=
                  ih fun k₂ hk₂ => hwaits k₂ (List.mem_cons_of_mem k₁ hk₂)
                have hj' : k'.procCurrIdx = j := Option.some.inj ((hnext k' hstep).symm.trans hj)
                rw [hj'] at hchain
                refine ⟨j :: js, ?_, ?_, List.isChain_cons_cons.2 ⟨hpasses, hchain⟩⟩
                · rw [List.map_cons, List.map_cons, hj]
                  exact congrArg (some j :: ·) hjs
                · exact List.not_mem_cons_of_ne_of_not_mem hjp.symm hpjs

/-- **Round-robin scheduling does not pass over a runnable process.**  In every run of the kernel,
from any state on, let `p` be a slot that is ready or runnable whenever `proc_yield` is called,
until it is selected.  Then no slot is selected twice before, and `p` is selected by the eighth call
at the latest. -/
theorem round_robin (k : Kernel M) (ops : List (Op M)) (p : Fin 8)
    (hwaits : ∀ k₁ ∈ k.callsBefore p ops, k₁.Waits p) :
    ((k.callsBefore p ops).map nextIdx).Nodup ∧
      (8 ≤ (k.calls ops).length → ∃ k₁ ∈ (k.calls ops).take 8, k₁.nextIdx = some p) := by
  obtain ⟨js, hjs, hp, hchain⟩ := exists_chain ops hwaits
  obtain ⟨hnodup, hlen, -⟩ := RoundRobin.chain_spec hchain hp
  have hbefore : (k.callsBefore p ops).length ≤ 7 := by
    have hgap := RoundRobin.gap_le k.procCurrIdx p
    have hlength := congrArg List.length hjs
    rw [List.length_map, List.length_map] at hlength
    omega
  refine ⟨?_, fun hcalls => ?_⟩
  · rw [hjs]
    exact hnodup.map (Option.some_injective _)
  · -- The first call that is not among the calls before.
    by_contra hnone
    have hall : ∀ k₁ ∈ (k.calls ops).take 8, decide (k₁.nextIdx ≠ some p) = true :=
      fun k₁ hk₁ => decide_eq_true fun h => hnone ⟨k₁, hk₁, h⟩
    have hlong : ((k.calls ops).take 8 ++ (k.calls ops).drop 8).takeWhile _ = _ :=
      List.takeWhile_append_of_pos hall
    have hlong := congrArg List.length hlong
    rw [List.take_append_drop, List.length_append, List.length_take] at hlong
    unfold callsBefore at hbefore
    omega

/-- Three processes, of which the first one is running. -/
def threeProcesses : Kernel Unit where
  procSet := ![⟨5, .running, 0, fun _ => 0, 0⟩, ⟨6, .runnable, 0, fun _ => 0, 0⟩,
    ⟨7, .ready, 0, fun _ => 0, 0⟩, ⟨0, .unused, 0, fun _ => 0, 0⟩, ⟨0, .unused, 0, fun _ => 0, 0⟩,
    ⟨0, .unused, 0, fun _ => 0, 0⟩, ⟨0, .unused, 0, fun _ => 0, 0⟩, ⟨0, .unused, 0, fun _ => 0, 0⟩]
  procCurrIdx := 0
  procNprocs := 7
  vmPid := 5
  mem _ := ⟨.unused, ⟨0, 0, ()⟩, 0⟩
  mepc := 0
  registers _ := 0

/-- Eight timer interrupts. -/
def eightTimers : List (Op Unit) := List.replicate 8 (.kernelEntry .timer false)

theorem round_robin_threeProcesses :
    ((threeProcesses.callsBefore 2 eightTimers).map nextIdx).Nodup ∧
      ∃ k₁ ∈ (threeProcesses.calls eightTimers).take 8, k₁.nextIdx = some 2 :=
  have h := round_robin threeProcesses eightTimers 2 (by decide +kernel)
  ⟨h.1, h.2 (by decide +kernel)⟩

end Kernel

end Egos
