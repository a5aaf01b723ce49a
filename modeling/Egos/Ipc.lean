/-
**Processes and the kernel.**

A process runs code of its own until it calls `sys_send` or `sys_recv` (`grass/syscall.c`): the call
fills the `struct syscall` at `SYSCALL_ARG` and raises a software interrupt, upon which the kernel
handles the system call and, sooner or later, resumes the process inside the function.  Timer
interrupts may come at any time.  The process `GPID_PROCESS` creates and frees the others.

What the processes see of this is synchronous message passing: the model of the kernel together with
the calls is simulated by `Egos/Rendezvous.lean`, so that arguments about processes need not mention
the process table, the scheduler or the address spaces.

What a caller passes to `sys_send`, the contents of the `struct syscall` and what `sys_recv` stores
in the buffer of its caller are of any types, between which `Egos.Memcpy` copies.

Main definitions:

* `Egos.Memcpy` — the copies of `sys_send` and `sys_recv`;
* `Egos.Sys`, `Egos.Sys.step`, `Egos.Sys.run` — the kernel with the processes on top of it;
* `Egos.Sys.Sim` — the relation between a state and the stages of the processes.

Main results:

* `Egos.Sys.sim_sysSend`, `Egos.Sys.sim_soft`, `Egos.Sys.sim_ret`, … — **what each step of the
  system is for the rendezvous**.
-/

import Egos.KernelSpec
import Egos.Rendezvous

set_option autoImplicit false

namespace Egos

open Function (update update_eq_self update_of_ne update_self)
open Rendezvous (Stage Ev Step)

/-- The length of the contents of a message. -/
def SYSCALL_MSG_LEN : ℕ := 1024

/-- The copies of `sys_send` and `sys_recv`, between the arguments `A` of a send, the contents `M`
of the `struct syscall`, and what is stored in the buffer of a receiver. -/
structure Memcpy (A M R : Type) where
  /-- The argument `size` of `sys_send`. -/
  size : A → ℕ
  /-- `memcpy(sc->msg.content, msg, size)` -/
  copyIn : A → M → M
  /-- What `memcpy(buf, sc->msg.content, size)` stores, for the argument `size` of `sys_recv`. -/
  copyOut : ℕ → M → R

/-- Where a process is in `sys_send` and `sys_recv`. -/
inductive Phase (A : Type)
  /-- Outside of both. -/
  | user
  /-- The `struct syscall` is filled, and the interrupt about to be raised. -/
  | sendCall (q : ℤ) (a : A)
  /-- The kernel has taken the interrupt, and the process will leave the waiting loop. -/
  | sendTrap (q : ℤ) (a : A)
  | recvCall (size : ℕ)
  | recvTrap (size : ℕ)

/-- A call that has returned to its process, with its arguments and results.  What a receiver finds
in `*sender` is `sender`, unless it passes a null pointer, and what it finds in its buffer is
`buf`. -/
inductive Returned (A R : Type)
  | send (p q : ℤ) (a : A) (retval : ℤ)
  | recv (p : ℤ) (size : ℕ) (sender : ℤ) (buf : R) (retval : ℤ)
  /-- `sys_recv` returns `-1` at once, as the size is too large, and stores nothing. -/
  | refused (p : ℤ) (size : ℕ)
  deriving DecidableEq

/-- The kernel and the processes. -/
structure Sys (A M R : Type) where
  kernel : Kernel M
  phase : ℤ → Phase A
  /-- The calls that have returned so far. -/
  log : List (Returned A R)

/-- What can happen next. -/
inductive Label (A : Type)
  /-- The current process calls `sys_send` or `sys_recv`. -/
  | sysSend (q : ℤ) (a : A)
  | sysRecv (size : ℕ)
  /-- An interrupt is taken, while `tty_recv_intr` reports a ctrl+c or not. -/
  | intr (id : Kernel.IntrId) (tty : Bool)
  /-- The current process returns from `sys_send` or `sys_recv`. -/
  | ret
  /-- `GPID_PROCESS` manages processes. -/
  | procAlloc
  | procSetReady (pid : ℤ)
  | procFree (pid : ℤ)

namespace Sys

variable {A M R : Type}

/-- The pid of the current process. -/
def curr (s : Sys A M R) : ℤ := s.kernel.currPid

/-- `sys_send`, up to the interrupt.  A message that is too long is refused. -/
def sysSend (cp : Memcpy A M R) (s : Sys A M R) (q : ℤ) (a : A) : Sys A M R :=
  if cp.size a > SYSCALL_MSG_LEN then { s with log := s.log ++ [.send s.curr q a (-1)] }
  else
    { s with
      kernel := s.kernel.setSc fun sc =>
        { sc with
          type := .send
          msg := { sc.msg with receiver := q, content := cp.copyIn a sc.msg.content } }
      phase := update s.phase s.curr (.sendCall q a) }

/-- `sys_recv`, up to the interrupt.  A size that is too large is refused. -/
def sysRecv (s : Sys A M R) (size : ℕ) : Sys A M R :=
  if size > SYSCALL_MSG_LEN then { s with log := s.log ++ [.refused s.curr size] }
  else
    { s with
      kernel := s.kernel.setSc fun sc => { sc with type := .recv }
      phase := update s.phase s.curr (.recvCall size) }

/-- The process is in the waiting loop once its software interrupt has been handled.  Ctrl+c makes
the kernel return without having looked at the call. -/
def trapped (s : Sys A M R) (tty : Bool) : Phase A → Phase A
  | .sendCall q a => if tty = true ∧ s.curr ≥ GPID_USER_START then .sendCall q a else .sendTrap q a
  | .recvCall n => if tty = true ∧ s.curr ≥ GPID_USER_START then .recvCall n else .recvTrap n
  | ph => ph

/-- An interrupt.  A software interrupt is only raised by `sys_invoke`. -/
def intr (s : Sys A M R) (id : Kernel.IntrId) (tty : Bool) : Option (Sys A M R) :=
  match s.kernel.kernelEntry id tty with
  | .error _ => none
  | .ok k =>
      match id, s.phase s.curr with
      | .timer, _ => some { s with kernel := k }
      | .soft, .sendCall q a =>
          some { s with
            kernel := k
            phase := update s.phase s.curr (s.trapped tty (.sendCall q a)) }
      | .soft, .recvCall n =>
          some { s with
            kernel := k
            phase := update s.phase s.curr (s.trapped tty (.recvCall n)) }
      | .soft, _ => none

/-- The return from `sys_send` or `sys_recv`, once the loop of `sys_invoke` ends. -/
def ret (cp : Memcpy A M R) (s : Sys A M R) : Option (Sys A M R) :=
  if s.kernel.sc.type = .unused then
    match s.phase s.curr with
    | .sendTrap q a =>
        some { s with
          phase := update s.phase s.curr .user
          log := s.log ++ [.send s.curr q a s.kernel.sc.retval] }
    | .recvTrap n =>
        some { s with
          phase := update s.phase s.curr .user
          log := s.log ++ [.recv s.curr n s.kernel.sc.msg.sender
            (cp.copyOut n s.kernel.sc.msg.content) s.kernel.sc.retval] }
    | _ => none
  else none

/-- The current process is outside of `sys_send` and `sys_recv`. -/
def atUser (s : Sys A M R) : Bool :=
  match s.phase s.curr with
  | .user => true
  | _ => false

/-- **What can happen next, and its effect.**  Processes are only managed by `GPID_PROCESS`, which
sets a process ready after loading it, and never frees itself. -/
def step (cp : Memcpy A M R) (s : Sys A M R) : Label A → Option (Sys A M R)
  | .sysSend q a => if s.atUser then some (s.sysSend cp q a) else none
  | .sysRecv n => if s.atUser then some (s.sysRecv n) else none
  | .intr id tty => s.intr id tty
  | .ret => s.ret cp
  | .procAlloc =>
      if s.atUser ∧ s.curr = GPID_PROCESS then
        match s.kernel.procAlloc with
        | .ok (pid, k) => some { s with kernel := k, phase := update s.phase pid .user }
        | .error _ => none
      else none
  | .procSetReady pid =>
      if s.atUser ∧ s.curr = GPID_PROCESS ∧ s.kernel.view pid = .loading then
        some { s with kernel := s.kernel.procSetReady pid }
      else none
  | .procFree pid =>
      if s.atUser ∧ s.curr = GPID_PROCESS ∧ pid ≠ GPID_PROCESS then
        some { s with kernel := s.kernel.procFree pid }
      else none

/-- An interrupt is handled by the kernel. -/
theorem step_intr {cp : Memcpy A M R} {s s' : Sys A M R} {id : Kernel.IntrId} {tty : Bool}
    (hs : s.step cp (.intr id tty) = some s') :
    s.kernel.kernelEntry id tty = .ok s'.kernel := by
  simp only [step, intr] at hs
  split at hs
  · simp at hs
  · rename_i k hk
    rw [hk]
    split at hs <;> first | rw [← Option.some.inj hs] | simp at hs

/-- A run of the system. -/
def run (cp : Memcpy A M R) (s : Sys A M R) (ls : List (Label A)) : Option (Sys A M R) :=
  ls.foldlM (fun s l => s.step cp l) s

/-- The system when grass starts the first process. -/
def boot (mem : ℤ → Syscall M) (registers : Fin 29 → UInt32) : Sys A M R :=
  { kernel := Kernel.boot mem registers
    phase := fun _ => .user
    log := [] }

/-- The processes that a run creates. -/
def allocs (ls : List (Label A)) : ℕ := ls.countP fun l => match l with
  | .procAlloc => true
  | _ => false

/-! ### The stages of the processes -/

/-- The contents are a message that was copied in. -/
def Holds (cp : Memcpy A M R) (c : M) (a : A) : Prop := ∃ old, c = cp.copyIn a old

/-- A process with the given state, `struct syscall` and phase is at the given stage. -/
def AtStage (cp : Memcpy A M R) (p : ℤ) (v : PView) (sc : Syscall M) (ph : Phase A) :
    Stage ℤ A → Prop
  | .unborn => v = .dead
  | .dead => v = .dead
  | .loading => v = .loading ∧ ph = .user
  | .user => v = .run ∧ ph = .user
  | .sendCall q a => v = .run ∧ ph = .sendCall q a ∧ sc.type = .send ∧ sc.msg.receiver = q ∧
      Holds cp sc.msg.content a
  | .recvCall => v = .run ∧ (∃ n ≤ SYSCALL_MSG_LEN, ph = .recvCall n) ∧ sc.type = .recv
  | .waitSend q a => v = .waitSend q ∧ ph = .sendTrap q a ∧ sc.type = .unused ∧ sc.retval = 0 ∧
      sc.msg.sender = p ∧ Holds cp sc.msg.content a
  | .waitRecv => v = .waitRecv ∧ (∃ n ≤ SYSCALL_MSG_LEN, ph = .recvTrap n) ∧
      sc.type = .unused ∧ sc.retval = 0
  | .sent q a ok => v = .run ∧ ph = .sendTrap q a ∧ sc.type = .unused ∧
      sc.retval = if ok then 0 else -1
  | .got s a => v = .run ∧ (∃ n ≤ SYSCALL_MSG_LEN, ph = .recvTrap n) ∧ sc.type = .unused ∧
      sc.retval = 0 ∧ sc.msg.sender = s ∧ Holds cp sc.msg.content a

/-- **The stages of all processes in a state of the system.** -/
structure Sim (cp : Memcpy A M R) (s : Sys A M R) (st : ℤ → Stage ℤ A) : Prop where
  kernel : s.kernel.AtUser
  stage : ∀ p, AtStage cp p (s.kernel.view p) (s.kernel.mem p) (s.phase p) (st p)
  /-- The pids that were not given out yet. -/
  unborn : ∀ p, st p = .unborn ↔ p ≤ 0 ∨ (s.kernel.procNprocs : ℤ) < p

section Simulation

variable {cp : Memcpy A M R} {s s' : Sys A M R} {st : ℤ → Stage ℤ A}

/-- The process in a state other than `dead` has a name in use. -/
theorem AtStage.ne_unborn {p : ℤ} {v : PView} {sc : Syscall M} {ph : Phase A} {x : Stage ℤ A}
    (h : AtStage cp p v sc ph x) (hv : v ≠ .dead) : x ≠ .unborn := by
  rintro rfl
  exact hv h

/-- The stage of a process that can run, by its phase. -/
def RunStage : Phase A → Stage ℤ A → Prop
  | .user, x => x = .user
  | .sendCall q a, x => x = .sendCall q a
  | .recvCall _, x => x = .recvCall
  | .sendTrap q a, x => ∃ ok, x = .sent q a ok
  | .recvTrap _, x => ∃ t a, x = .got t a

theorem AtStage.of_run {p : ℤ} {sc : Syscall M} {ph : Phase A} {x : Stage ℤ A}
    (h : AtStage cp p .run sc ph x) : RunStage ph x := by
  cases x with
  | unborn | dead | loading | waitSend | waitRecv => simp [AtStage] at h
  | user =>
      rw [h.2]
      rfl
  | sendCall q a =>
      rw [h.2.1]
      rfl
  | recvCall =>
      obtain ⟨-, ⟨n, -, rfl⟩, -⟩ := h
      rfl
  | sent q a ok =>
      rw [h.2.1]
      exact ⟨ok, rfl⟩
  | got t a =>
      obtain ⟨-, ⟨n, -, rfl⟩, -⟩ := h
      exact ⟨t, a, rfl⟩

/-- **The stages after a change**: every process is where it was, or the change put it where it is
now. -/
theorem Sim.change (h : Sim cp s st) (hk : s'.kernel.AtUser)
    (hn : s'.kernel.procNprocs = s.kernel.procNprocs) {st' : ℤ → Stage ℤ A}
    (hst : ∀ r, (st' r = st r ∧ s'.kernel.view r = s.kernel.view r ∧
        s'.kernel.mem r = s.kernel.mem r ∧ s'.phase r = s.phase r) ∨
      (AtStage cp r (s'.kernel.view r) (s'.kernel.mem r) (s'.phase r) (st' r) ∧
        st r ≠ .unborn ∧ st' r ≠ .unborn)) : Sim cp s' st' := by
  refine ⟨hk, fun r => ?_, fun r => ?_⟩
  · rcases hst r with ⟨h₁, h₂, h₃, h₄⟩ | ⟨hr, -⟩
    · rw [h₁, h₂, h₃, h₄]
      exact h.stage r
    · exact hr
  · rw [hn, ← h.unborn r]
    rcases hst r with ⟨h₁, -⟩ | ⟨-, h₁, h₂⟩
    · rw [h₁]
    · exact ⟨fun he => absurd he h₂, fun he => absurd he h₁⟩

theorem Sim.curr_run (h : Sim cp s st) :
    AtStage cp s.curr .run (s.kernel.mem s.curr) (s.phase s.curr) (st s.curr) := by
  have hc := h.stage s.curr
  rwa [show s.kernel.view s.curr = .run from h.kernel.view_currPid] at hc

theorem Sim.curr_ne_unborn (h : Sim cp s st) : st s.curr ≠ .unborn :=
  h.curr_run.ne_unborn (by simp)

theorem Sim.curr_user (h : Sim cp s st) (hu : s.atUser = true) : st s.curr = .user := by
  have hc := h.curr_run.of_run
  rw [atUser] at hu
  split at hu
  · rename_i hph
    rw [hph] at hc
    exact hc
  · simp at hu

/-- A change to the current process alone. -/
theorem Sim.change_curr (h : Sim cp s st) (hk : s'.kernel.AtUser)
    (hn : s'.kernel.procNprocs = s.kernel.procNprocs) {x : Stage ℤ A}
    (hx : AtStage cp s.curr (s'.kernel.view s.curr) (s'.kernel.mem s.curr) (s'.phase s.curr) x)
    (hne : x ≠ .unborn) (hother : ∀ r, r ≠ s.curr → s'.kernel.view r = s.kernel.view r ∧
      s'.kernel.mem r = s.kernel.mem r ∧ s'.phase r = s.phase r) :
    Sim cp s' (update st s.curr x) := by
  refine h.change hk hn fun r => ?_
  by_cases hr : r = s.curr
  · subst hr
    rw [update_self]
    exact Or.inr ⟨hx, h.curr_ne_unborn, hne⟩
  · rw [update_of_ne hr]
    exact Or.inl ⟨rfl, hother r hr⟩

/-! ### Calls and returns -/

theorem sim_sysSend {q : ℤ} {a : A} (h : Sim cp s st) (hsize : cp.size a ≤ SYSCALL_MSG_LEN)
    (hs : s.step cp (.sysSend q a) = some s') :
    Sim cp s' (update st s.curr (.sendCall q a)) ∧
      Step st (.sysSend s.curr q a) (update st s.curr (.sendCall q a)) := by
  by_cases hu : s.atUser = true
  · simp only [step, hu, if_true, Option.some.injEq, sysSend, if_neg (Nat.not_lt.2 hsize)] at hs
    subst hs
    obtain ⟨hk, hmem⟩ := h.kernel.setSc fun sc =>
      { sc with
        type := .send
        msg := { sc.msg with receiver := q, content := cp.copyIn a sc.msg.content } }
    refine ⟨h.change_curr ?_ ?_ ?_ ?_ fun r hr => ⟨?_, ?_, ?_⟩, .sysSend (h.curr_user hu)⟩
    · exact hk
    · rfl
    · refine ⟨h.kernel.view_currPid, update_self _ _ _, ?_⟩
      rw [hmem, show s.curr = s.kernel.currPid from rfl, update_self]
      exact ⟨rfl, rfl, _, rfl⟩
    · simp
    · rfl
    · rw [hmem]
      exact update_of_ne hr _ _
    · exact update_of_ne hr _ _
  · simp [step, hu] at hs

theorem sim_sysRecv {n : ℕ} (h : Sim cp s st) (hsize : n ≤ SYSCALL_MSG_LEN)
    (hs : s.step cp (.sysRecv n) = some s') :
    Sim cp s' (update st s.curr .recvCall) ∧
      Step st (.sysRecv s.curr) (update st s.curr .recvCall) := by
  by_cases hu : s.atUser = true
  · simp only [step, hu, if_true, Option.some.injEq, sysRecv, if_neg (Nat.not_lt.2 hsize)] at hs
    subst hs
    obtain ⟨hk, hmem⟩ := h.kernel.setSc fun sc => { sc with type := .recv }
    refine ⟨h.change_curr ?_ ?_ ?_ ?_ fun r hr => ⟨?_, ?_, ?_⟩, .sysRecv (h.curr_user hu)⟩
    · exact hk
    · rfl
    · refine ⟨h.kernel.view_currPid, ⟨n, hsize, update_self _ _ _⟩, ?_⟩
      rw [hmem, show s.curr = s.kernel.currPid from rfl, update_self]
    · simp
    · rfl
    · rw [hmem]
      exact update_of_ne hr _ _
    · exact update_of_ne hr _ _
  · simp [step, hu] at hs

/-- **A call that is refused** is only logged. -/
theorem Sim.log (h : Sim cp s st) (log : List (Returned A R)) : Sim cp { s with log := log } st :=
  ⟨h.kernel, h.stage, h.unborn⟩

theorem sysSend_refused {q : ℤ} {a : A} (hsize : ¬ cp.size a ≤ SYSCALL_MSG_LEN)
    (hs : s.step cp (.sysSend q a) = some s') :
    s' = { s with log := s.log ++ [.send s.curr q a (-1)] } := by
  simp only [step, sysSend, if_pos (Nat.not_le.1 hsize)] at hs
  split at hs
  · exact (Option.some.inj hs).symm
  · simp at hs

theorem sysRecv_refused {n : ℕ} (hsize : ¬ n ≤ SYSCALL_MSG_LEN)
    (hs : s.step cp (.sysRecv n) = some s') :
    s' = { s with log := s.log ++ [.refused s.curr n] } := by
  simp only [step, sysRecv, if_pos (Nat.not_le.1 hsize)] at hs
  split at hs
  · exact (Option.some.inj hs).symm
  · simp at hs

/-- The return from a call is logged. -/
theorem sim_ret (h : Sim cp s st) (hs : s.step cp .ret = some s') :
    Sim cp s' (update st s.curr .user) ∧
      ((∃ q a ok, s.phase s.curr = .sendTrap q a ∧
          s'.log = s.log ++ [.send s.curr q a (if ok then 0 else -1)] ∧
          Step st (.retSend s.curr q a ok) (update st s.curr .user)) ∨
        ∃ t a c n, s.phase s.curr = .recvTrap n ∧ n ≤ SYSCALL_MSG_LEN ∧ Holds cp c a ∧
          s'.log = s.log ++ [.recv s.curr n t (cp.copyOut n c) 0] ∧
          Step st (.retRecv s.curr t a) (update st s.curr .user)) := by
  have hsc : s.kernel.sc = s.kernel.mem s.curr := by rw [Kernel.sc, h.kernel.vm, curr]
  have hc := h.curr_run
  -- back in its own code
  have hback : ∀ log, Sim cp
      { s with phase := update s.phase s.curr .user, log := log }
      (update st s.curr .user) := by
    intro log
    refine h.change_curr ?_ ?_ ?_ ?_ fun r hr => ⟨?_, ?_, ?_⟩
    · exact h.kernel
    · rfl
    · exact ⟨h.kernel.view_currPid, update_self _ _ _⟩
    · simp
    · rfl
    · rfl
    · exact update_of_ne hr _ _
  simp only [step, ret, hsc] at hs
  split at hs
  · rename_i hty
    cases hph : s.phase s.curr with
    | user => simp [hph] at hs
    | sendCall q a => simp [hph] at hs
    | recvCall n => simp [hph] at hs
    | sendTrap q a =>
        simp only [hph, Option.some.injEq] at hs
        subst hs
        obtain ⟨ok, hst⟩ : ∃ ok, st s.curr = .sent q a ok := by
          have := hc.of_run
          rwa [hph] at this
        have hret : (s.kernel.mem s.curr).retval = if ok then 0 else -1 := by
          rw [hst] at hc
          exact hc.2.2.2
        refine ⟨hback _, Or.inl ⟨q, a, ok, rfl, ?_, .retSend hst⟩⟩
        rw [hret]
    | recvTrap n =>
        simp only [hph, Option.some.injEq] at hs
        subst hs
        obtain ⟨t, a, hst⟩ : ∃ t a, st s.curr = .got t a := by
          have := hc.of_run
          rwa [hph] at this
        rw [hst] at hc
        obtain ⟨-, ⟨n', hn', hph'⟩, -, hret, hsender, hcont⟩ := hc
        obtain rfl : n = n' := Phase.recvTrap.inj (hph.symm.trans hph')
        refine ⟨hback _, Or.inr ⟨t, a, _, n, rfl, hn', hcont, ?_, .retRecv hst⟩⟩
        rw [hret, hsender]
  · simp at hs

/-! ### Interrupts -/

/-- What the current process may do in a software interrupt. -/
def TrapEv (s : Sys A M R) : Ev ℤ A → Prop
  | .fail p => p = s.curr
  | .block p => p = s.curr
  | .give p _ _ => p = s.curr
  | .wait q => q = s.curr
  | .take p q _ => q = s.curr ∧ s.kernel.findSender = p
  | _ => False

/-- The stages after a message has changed hands. -/
theorem Sim.change_two (h : Sim cp s st) (hk : s'.kernel.AtUser)
    (hn : s'.kernel.procNprocs = s.kernel.procNprocs) {p q : ℤ} {x y : Stage ℤ A} (hpq : p ≠ q)
    (hx : AtStage cp p (s'.kernel.view p) (s'.kernel.mem p) (s'.phase p) x)
    (hy : AtStage cp q (s'.kernel.view q) (s'.kernel.mem q) (s'.phase q) y)
    (hp0 : st p ≠ .unborn) (hq0 : st q ≠ .unborn) (hx0 : x ≠ .unborn) (hy0 : y ≠ .unborn)
    (hother : ∀ r, r ≠ p → r ≠ q → s'.kernel.view r = s.kernel.view r ∧
      s'.kernel.mem r = s.kernel.mem r ∧ s'.phase r = s.phase r) :
    Sim cp s' (update (update st p x) q y) := by
  refine h.change hk hn fun r => ?_
  by_cases hrq : r = q
  · subst hrq
    rw [update_self]
    exact Or.inr ⟨hy, hq0, hy0⟩
  · rw [update_of_ne hrq]
    by_cases hrp : r = p
    · subst hrp
      rw [update_self]
      exact Or.inr ⟨hx, hp0, hx0⟩
    · rw [update_of_ne hrp]
      exact Or.inl ⟨rfl, hother r hrp hrq⟩

theorem sim_timer {tty : Bool} (h : Sim cp s st)
    (hs : s.step cp (.intr .timer tty) = some s') : Sim cp s' st := by
  simp only [step, intr] at hs
  cases hke : s.kernel.kernelEntry .timer tty with
  | error e => simp [hke] at hs
  | ok k =>
      simp only [hke, Option.some.injEq] at hs
      subst hs
      obtain ⟨hk, hsame⟩ := Kernel.kernelEntry_timer h.kernel hke
      refine h.change hk hsame.nprocs fun r => Or.inl ⟨rfl, ?_, ?_, rfl⟩
      · exact congrFun hsame.view r
      · exact congrFun hsame.mem r

/-- What the kernel does for a process in `sys_send`. -/
theorem sim_send {q : ℤ} {a : A} {k : Kernel M} (h : Sim cp s st)
    (hph : s.phase s.curr = .sendCall q a) (hk : k.AtUser)
    (hn : k.procNprocs = s.kernel.procNprocs)
    (hh : Kernel.Handled s.kernel s.curr k.view k.mem) :
    ∃ st' e, Sim cp
        { s with kernel := k, phase := update s.phase s.curr (.sendTrap q a) } st' ∧
      Step st e st' ∧ s.TrapEv e := by
  have hst : st s.curr = .sendCall q a := by
    have := h.curr_run.of_run
    rwa [hph] at this
  have hc := h.curr_run
  rw [hst] at hc
  obtain ⟨-, -, hty, hrecv, hcont⟩ := hc
  have hrun : s.kernel.view s.curr = .run := h.kernel.view_currPid
  have hphase : ∀ r, r ≠ s.curr →
      update s.phase s.curr (.sendTrap q a) r = s.phase r := fun r hr =>
    update_of_ne hr _ _
  generalize hview : k.view = v at hh
  generalize hmem : k.mem = m at hh
  cases hh with
  | recvBlock hty' _ => rw [hty] at hty'; simp at hty'
  | recvDeliver t hty' _ _ => rw [hty] at hty'; simp at hty'
  | sendFail _ hq =>
      rw [hrecv] at hq
      have hdead : s.kernel.view q = .dead := Kernel.view_eq_dead fun i hi => absurd ⟨i, hi⟩ hq
      refine ⟨_, .fail s.curr, h.change_curr ?_ ?_ ?_ ?_ fun r hr => ⟨?_, ?_, hphase r hr⟩,
        .fail hst ?_, rfl⟩
      · exact hk
      · exact hn
      · refine ⟨?_, update_self _ _ _, ?_⟩
        · simp only [hview, hrun]
        · simp only [hmem, update_self]
          exact ⟨rfl, rfl⟩
      · simp
      · simp only [hview]
      · simp only [hmem, update_of_ne hr]
      · have hq' := h.stage q
        rw [hdead] at hq'
        cases hx : st q <;> rw [hx] at hq' <;> simp [AtStage] at hq' ⊢
  | sendBlock _ hq hv =>
      rw [hrecv] at hv hview
      refine ⟨_, .block s.curr, h.change_curr ?_ ?_ ?_ ?_ fun r hr => ⟨?_, ?_, hphase r hr⟩,
        .block hst ?_, rfl⟩
      · exact hk
      · exact hn
      · refine ⟨?_, update_self _ _ _, ?_⟩
        · simp only [hview, update_self]
        · simp only [hmem, update_self]
          exact ⟨rfl, rfl, rfl, hcont⟩
      · simp
      · simp only [hview, update_of_ne hr]
      · simp only [hmem, update_of_ne hr]
      · intro hw
        have hq' := h.stage q
        rw [hw] at hq'
        exact hv hq'.1
  | sendDeliver _ hv =>
      rw [hrecv] at hv hview hmem
      have hne : s.curr ≠ q := by
        rintro rfl
        rw [hrun] at hv
        simp at hv
      -- the receiver has been waiting
      have hq' := h.stage q
      rw [hv] at hq'
      have hstq : st q = .waitRecv := by
        cases hx : st q <;> rw [hx] at hq' <;> simp [AtStage] at hq' ⊢
      rw [hstq] at hq'
      obtain ⟨-, ⟨n, hn', hphq⟩, htyq, hretq⟩ := hq'
      refine ⟨_, .give s.curr q a, h.change_two ?_ ?_ hne ?_ ?_ h.curr_ne_unborn ?_ ?_ ?_
        fun r hr hrq => ⟨?_, ?_, hphase r hr⟩, .give hst hstq, rfl⟩
      · exact hk
      · exact hn
      · refine ⟨?_, update_self _ _ _, ?_⟩
        · simp only [hview, update_of_ne hne, hrun]
        · simp only [hmem, update_of_ne hne, update_self]
          exact ⟨rfl, rfl⟩
      · refine ⟨?_, ⟨n, hn', ?_⟩, ?_⟩
        · simp only [hview, update_self]
        · rw [← hphq]
          exact hphase q hne.symm
        · simp only [hmem, update_self]
          exact ⟨htyq, hretq, rfl, hcont⟩
      · simp [hstq]
      · simp
      · simp
      · simp only [hview, update_of_ne hrq]
      · simp only [hmem, update_of_ne hrq, update_of_ne hr]

/-- What the kernel does for a process in `sys_recv`. -/
theorem sim_recv {n : ℕ} {k : Kernel M} (h : Sim cp s st)
    (hph : s.phase s.curr = .recvCall n) (hk : k.AtUser)
    (hn : k.procNprocs = s.kernel.procNprocs)
    (hh : Kernel.Handled s.kernel s.curr k.view k.mem) :
    ∃ st' e, Sim cp
        { s with kernel := k, phase := update s.phase s.curr (.recvTrap n) } st' ∧
      Step st e st' ∧ s.TrapEv e := by
  have hst : st s.curr = .recvCall := by
    have := h.curr_run.of_run
    rwa [hph] at this
  have hc := h.curr_run
  rw [hst] at hc
  obtain ⟨-, ⟨n', hn', hph'⟩, hty⟩ := hc
  obtain rfl : n = n' := Phase.recvCall.inj (hph.symm.trans hph')
  have hrun : s.kernel.view s.curr = .run := h.kernel.view_currPid
  have hphase : ∀ r, r ≠ s.curr →
      update s.phase s.curr (.recvTrap n) r = s.phase r := fun r hr =>
    update_of_ne hr _ _
  generalize hview : k.view = v at hh
  generalize hmem : k.mem = m at hh
  cases hh with
  | sendFail hty' _ => rw [hty] at hty'; simp at hty'
  | sendBlock hty' _ _ => rw [hty] at hty'; simp at hty'
  | sendDeliver hty' _ => rw [hty] at hty'; simp at hty'
  | recvBlock _ hs =>
      refine ⟨_, .wait s.curr, h.change_curr ?_ ?_ ?_ ?_ fun r hr => ⟨?_, ?_, hphase r hr⟩,
        .wait hst fun t a ht => ?_, rfl⟩
      · exact hk
      · exact hn
      · refine ⟨?_, ⟨n, hn', update_self _ _ _⟩, ?_⟩
        · simp only [hview, update_self]
        · simp [hmem]
      · simp
      · simp only [hview, update_of_ne hr]
      · simp only [hmem, update_of_ne hr]
      · have ht' := h.stage t
        rw [ht] at ht'
        exact hs t ht'.1
  | recvDeliver t _ hs hfind =>
      have hne : t ≠ s.curr := by
        rintro rfl
        rw [hrun] at hs
        simp at hs
      -- the sender has been waiting
      have ht' := h.stage t
      rw [hs] at ht'
      obtain ⟨a, hstt⟩ : ∃ a, st t = .waitSend s.curr a := by
        cases hx : st t <;> rw [hx] at ht' <;> simp [AtStage] at ht' ⊢
        exact ht'.1.symm
      rw [hstt] at ht'
      obtain ⟨-, hpht, htyt, hrett, hsend, hcont⟩ := ht'
      refine ⟨_, .take t s.curr a, h.change_two ?_ ?_ hne ?_ ?_ ?_ h.curr_ne_unborn ?_ ?_
        fun r hr hrc => ⟨?_, ?_, hphase r hrc⟩, .take hst hstt, rfl, hfind⟩
      · exact hk
      · exact hn
      · refine ⟨?_, ?_, ?_⟩
        · simp only [hview, update_self]
        · rw [← hpht]
          exact hphase t hne
        · simp only [hmem, update_of_ne hne]
          exact ⟨htyt, hrett⟩
      · refine ⟨?_, ⟨n, hn', update_self _ _ _⟩, ?_⟩
        · simp only [hview, update_of_ne hne.symm, hrun]
        · simp [hmem, hsend, hcont]
      · simp [hstt]
      · simp
      · simp
      · simp only [hview, update_of_ne hr]
      · simp only [hmem, update_of_ne hrc]

/-- **A software interrupt** is a step of the rendezvous, unless ctrl+c keeps the kernel from
looking at the call. -/
theorem sim_soft {tty : Bool} (h : Sim cp s st)
    (hs : s.step cp (.intr .soft tty) = some s') :
    (Sim cp s' st ∧ s'.phase = s.phase) ∨
      ¬ (tty = true ∧ s.curr ≥ GPID_USER_START) ∧
        ∃ st' e, Sim cp s' st' ∧ Step st e st' ∧ s.TrapEv e := by
  simp only [step, intr] at hs
  cases hke : s.kernel.kernelEntry .soft tty with
  | error e => simp [hke] at hs
  | ok k =>
      obtain ⟨hk, hn, -, hcases⟩ := Kernel.kernelEntry_soft h.kernel hke
      have hcurr : s.kernel.currPid = s.curr := rfl
      rw [hcurr] at hcases
      by_cases hc : tty = true ∧ s.curr ≥ GPID_USER_START
      · rw [if_pos hc] at hcases
        refine Or.inl ?_
        obtain ⟨hview, hmem, -⟩ := hcases
        have hs' : s' = { s with kernel := k } := by
          cases hph : s.phase s.curr with
          | user => simp [hke, hph] at hs
          | sendTrap q a => simp [hke, hph] at hs
          | recvTrap n => simp [hke, hph] at hs
          | sendCall q a | recvCall n =>
              simp only [hke, hph, trapped, if_pos hc, Option.some.injEq] at hs
              rw [← hs, ← hph, update_eq_self]
        subst hs'
        exact ⟨h.change hk hn fun r => Or.inl ⟨rfl, congrFun hview r, congrFun hmem r, rfl⟩, rfl⟩
      · rw [if_neg hc] at hcases
        refine Or.inr ⟨hc, ?_⟩
        cases hph : s.phase s.curr with
        | user => simp [hke, hph] at hs
        | sendTrap q a => simp [hke, hph] at hs
        | recvTrap n => simp [hke, hph] at hs
        | sendCall q a =>
            simp only [hke, hph, trapped, if_neg hc, Option.some.injEq] at hs
            subst hs
            exact sim_send h hph hk hn hcases
        | recvCall n =>
            simp only [hke, hph, trapped, if_neg hc, Option.some.injEq] at hs
            subst hs
            exact sim_recv h hph hk hn hcases

/-! ### Processes come and go -/

theorem sim_procAlloc (h : Sim cp s st) (hn : s.kernel.procNprocs + 1 < 2 ^ 31)
    (hs : s.step cp .procAlloc = some s') :
    ∃ pid, pid = (s.kernel.procNprocs : ℤ) + 1 ∧
      s'.kernel.procNprocs = s.kernel.procNprocs + 1 ∧ s'.curr = s.curr ∧
      Sim cp s' (update st pid .loading) ∧
      Step st (.spawn pid) (update st pid .loading) := by
  simp only [step] at hs
  split at hs
  · cases ha : s.kernel.procAlloc with
    | error e => simp [ha] at hs
    | ok r =>
        obtain ⟨pid, k⟩ := r
        simp only [ha, Option.some.injEq] at hs
        subst hs
        obtain ⟨hk, rfl, hn', -, hview, hmem, hcurr⟩ := Kernel.procAlloc_spec h.kernel hn ha
        have hnew : st ((s.kernel.procNprocs : ℤ) + 1) = .unborn :=
          (h.unborn _).2 (Or.inr (by omega))
        refine ⟨_, rfl, hn', hcurr, ⟨hk, fun r => ?_, fun r => ?_⟩, .spawn hnew⟩
        · by_cases hr : r = (s.kernel.procNprocs : ℤ) + 1
          · subst hr
            simp only [hview, update_self]
            exact ⟨rfl, rfl⟩
          · simp only [hview, hmem, update_of_ne hr]
            exact h.stage r
        · have hur := h.unborn r
          by_cases hr : r = (s.kernel.procNprocs : ℤ) + 1
          · subst hr
            simp only [update_self, hn']
            refine ⟨fun he => by simp at he, fun he => ?_⟩
            omega
          · simp only [update_of_ne hr, hn', hur]
            omega
  · simp at hs

theorem sim_procSetReady {pid : ℤ} (h : Sim cp s st)
    (hs : s.step cp (.procSetReady pid) = some s') :
    Sim cp s' (update st pid .user) ∧
      Step st (.ready pid) (update st pid .user) := by
  simp only [step] at hs
  split at hs
  · rename_i hc
    obtain ⟨-, -, hv⟩ := hc
    simp only [Option.some.injEq] at hs
    subst hs
    obtain ⟨hk, hview⟩ := Kernel.procSetReady_spec h.kernel hv
    have hp := h.stage pid
    rw [hv] at hp
    have hst : st pid = .loading := by
      cases hx : st pid <;> rw [hx] at hp <;> simp [AtStage] at hp ⊢
    rw [hst] at hp
    refine ⟨h.change ?_ ?_ fun r => ?_, .ready hst⟩
    · exact hk
    · rfl
    · by_cases hr : r = pid
      · subst hr
        refine Or.inr ⟨?_, by simp [hst], by simp⟩
        simp only [hview, update_self]
        exact ⟨rfl, hp.2⟩
      · refine Or.inl ⟨update_of_ne hr _ _, ?_, rfl, rfl⟩
        simp only [hview, update_of_ne hr]
  · simp at hs

/-- The processes that `proc_free` ends. -/
def goneBy (st : ℤ → Stage ℤ A) (pid p : ℤ) : Bool :=
  (if pid = -1 then decide (p ≥ GPID_USER_START) else decide (p = pid)) &&
    match st p with
    | .unborn => false
    | _ => true

theorem sim_procFree {pid : ℤ} (h : Sim cp s st)
    (hs : s.step cp (.procFree pid) = some s') :
    Sim cp s' (fun p => if goneBy st pid p then .dead else st p) ∧
      Step st (.kill (goneBy st pid)) (fun p => if goneBy st pid p then .dead else st p) := by
  simp only [step] at hs
  split at hs
  · rename_i hc
    obtain ⟨-, hcurr, hne⟩ := hc
    simp only [Option.some.injEq] at hs
    subst hs
    have hcurr' : s.kernel.currPid = GPID_PROCESS := hcurr
    obtain ⟨hk, hview⟩ := Kernel.procFree_spec h.kernel pid (by
      rw [hcurr']
      split
      · decide
      · exact hne)
    have hmem : (s.kernel.procFree pid).mem = s.kernel.mem := by
      rw [Kernel.procFree_eq]
      rfl
    have hn : (s.kernel.procFree pid).procNprocs = s.kernel.procNprocs := by
      rw [Kernel.procFree_eq]
      rfl
    have hkill : ∀ p, goneBy st pid p = true → st p ≠ .unborn := by
      intro p hp he
      simp [goneBy, he] at hp
    refine ⟨⟨?_, fun p => ?_, fun p => ?_⟩, .kill hkill⟩
    · exact hk
    · simp only [hview, hmem]
      by_cases hp : (if pid = -1 then p ≥ GPID_USER_START else p = pid)
      · have hin : (if pid = -1 then decide (p ≥ GPID_USER_START) else decide (p = pid)) =
            true := by
          split at hp <;> simp [*]
        rw [if_pos hp]
        by_cases hu : st p = .unborn
        · simp only [goneBy, hu, Bool.and_false, Bool.false_eq_true, if_false]
          rfl
        · have hg : goneBy st pid p = true := by
            rw [goneBy, hin, Bool.true_and]
            cases hx : st p <;> simp [hx] at hu ⊢
          rw [if_pos hg]
          rfl
      · have hin : (if pid = -1 then decide (p ≥ GPID_USER_START) else decide (p = pid)) =
            false := by
          split at hp <;> simp [*]
        have hg : goneBy st pid p ≠ true := by simp [goneBy, hin]
        rw [if_neg hp, if_neg hg]
        exact h.stage p
    · simp only [hn, ← h.unborn p]
      by_cases hg : goneBy st pid p = true
      · rw [if_pos hg]
        exact ⟨fun he => by simp at he, fun he => absurd he (hkill p hg)⟩
      · rw [if_neg hg]
  · simp at hs

end Simulation

end Sys

end Egos
