/-
**Messages are delivered exactly once.**

The stages of the processes in a run of the system form a run of the rendezvous, so what is known
there about calls and messages holds for `sys_send` and `sys_recv`: there is one list of the
messages that changed hands in the run, and the calls of every process that returned, taken in
order, are the messages of this list that it sent, or those that it was to receive.  Only the last
message of a process may be missing among its calls: the call has not returned yet, or the process
was freed before it could return.

Main definitions:

* `Egos.SendArgs`, `Egos.memcpy` — the message of `sys_send`, and the copies between the memory of
  the callers and the `struct syscall`;
* `Egos.Sys.okSends`, `Egos.Sys.recvs` — the calls of a process that returned.

Main results:

* `Egos.Sys.sim_step`, `Egos.Sys.run_sim` — every run of the system is a run of the rendezvous;
* `Egos.ipc_exactly_once` — **the messages that change hands are matched with the calls**;
* `Egos.ipc_not_exactly_once` — a message that has been delivered is lost if its receiver is freed
  before it returns from `sys_recv`, a call that asks for too much returns without a message, and
  one that asks for less than what was sent gets less.
-/

import Egos.Ipc

set_option autoImplicit false

namespace Egos

open Rendezvous (Stage Ev Step Run transfers given taken sendsDone recvsDone)

namespace Sys

variable {A M R : Type} {cp : Memcpy A M R}

/-! ### Runs -/

/-- The successful calls of `p` to `sys_send` that returned: the receiver and the message. -/
def okSends (p : ℤ) (log : List (Returned A R)) : List (ℤ × A) :=
  log.filterMap fun e => match e with
    | .send p' q a r => if p' = p ∧ r = 0 then some (q, a) else none
    | _ => none

/-- A call of `sys_recv` that returned: the sender, the number of bytes that were asked for, what
was stored in the buffer, and the result. -/
structure Received (R : Type) where
  sender : ℤ
  size : ℕ
  buf : R
  retval : ℤ

/-- The calls of `q` to `sys_recv` that returned, but for those that asked for too much. -/
def recvs (q : ℤ) (log : List (Returned A R)) : List (Received R) :=
  log.filterMap fun e => match e with
    | .recv q' n t b r => if q' = q then some ⟨t, n, b, r⟩ else none
    | _ => none

/-- The stages when grass starts the first process. -/
def stage₀ : ℤ → Stage ℤ A := fun p => if p = GPID_PROCESS then .user else .unborn

theorem sim_boot (mem : ℤ → Syscall M) (registers : Fin 29 → UInt32) :
    Sim cp (boot mem registers) stage₀ := by
  have hk := Kernel.boot_atUser mem registers
  refine ⟨hk, fun p => ?_, fun p => ?_⟩
  · by_cases hp : p = GPID_PROCESS
    · subst hp
      exact ⟨hk.view_currPid, rfl⟩
    · rw [stage₀, if_neg hp]
      refine Kernel.view_eq_dead fun i hi => ?_
      by_cases h0 : i = 0
      · subst h0
        exact absurd hi.symm hp
      · simp [boot, Kernel.boot, h0, Process.view]
  · rw [stage₀]
    by_cases hp : p = GPID_PROCESS
    · subst hp
      simp [boot, Kernel.boot]
    · have hp' : p ≠ 1 := hp
      simp only [if_neg hp, boot, Kernel.boot, true_iff]
      omega

theorem allocs_append (ls ls' : List (Label A)) :
    allocs (ls ++ ls') = allocs ls + allocs ls' := by
  rw [allocs, List.countP_append]
  rfl

/-- The call is not refused for its size. -/
def Fits (cp : Memcpy A M R) : Label A → Prop
  | .sysSend _ a => cp.size a ≤ SYSCALL_MSG_LEN
  | .sysRecv n => n ≤ SYSCALL_MSG_LEN
  | _ => True

/-- Only returns are logged. -/
theorem step_log {s s' : Sys A M R} {l : Label A} (hs : s.step cp l = some s') (hl : l ≠ .ret)
    (hfits : Fits cp l) : s'.log = s.log := by
  cases l with
  | ret => exact absurd rfl hl
  | sysSend q a =>
      simp only [step, sysSend, if_neg (Nat.not_lt.2 hfits)] at hs
      split at hs
      · exact (congrArg Sys.log (Option.some.inj hs)).symm
      · simp at hs
  | sysRecv n =>
      simp only [step, sysRecv, if_neg (Nat.not_lt.2 hfits)] at hs
      split at hs
      · exact (congrArg Sys.log (Option.some.inj hs)).symm
      · simp at hs
  | procSetReady pid | procFree pid =>
      simp only [step] at hs
      split at hs
      · exact (congrArg Sys.log (Option.some.inj hs)).symm
      · simp at hs
  | procAlloc =>
      simp only [step] at hs
      split at hs
      · split at hs
        · rw [← Option.some.inj hs]
        · simp at hs
      · simp at hs
  | intr id tty =>
      simp only [step, intr] at hs
      split at hs
      · simp at hs
      · split at hs
        · rw [← Option.some.inj hs]
        · rw [← Option.some.inj hs]
        · rw [← Option.some.inj hs]
        · simp at hs

/-- Only `proc_alloc` creates processes. -/
theorem Sim.step_nprocs_of_ne {s s' : Sys A M R} {st : ℤ → Stage ℤ A} (h : Sim cp s st)
    {l : Label A} (hs : s.step cp l = some s') (hl : l ≠ .procAlloc) :
    s'.kernel.procNprocs = s.kernel.procNprocs := by
  cases l with
  | procAlloc => exact absurd rfl hl
  | sysSend q a =>
      simp only [step, sysSend] at hs
      split at hs
      · rw [← Option.some.inj hs]
        split <;> rfl
      · simp at hs
  | sysRecv n =>
      simp only [step, sysRecv] at hs
      split at hs
      · rw [← Option.some.inj hs]
        split <;> rfl
      · simp at hs
  | procSetReady pid =>
      simp only [step] at hs
      split at hs
      · rw [← Option.some.inj hs]
        rfl
      · simp at hs
  | procFree pid =>
      simp only [step] at hs
      split at hs
      · rw [← Option.some.inj hs]
        change (s.kernel.procFree pid).procNprocs = _
        rw [Kernel.procFree_eq]
        rfl
      · simp at hs
  | ret =>
      simp only [step, ret] at hs
      split at hs
      · split at hs
        · rw [← Option.some.inj hs]
        · rw [← Option.some.inj hs]
        · simp at hs
      · simp at hs
  | intr id tty =>
      simp only [step, intr] at hs
      cases hke : s.kernel.kernelEntry id tty with
      | error e => simp [hke] at hs
      | ok k =>
          have hk : k.procNprocs = s.kernel.procNprocs := by
            cases id with
            | soft => exact (Kernel.kernelEntry_soft h.kernel hke).2.1
            | timer => exact (Kernel.kernelEntry_timer h.kernel hke).2.nprocs
          simp only [hke] at hs
          split at hs
          · rw [← Option.some.inj hs]
            exact hk
          · rw [← Option.some.inj hs]
            exact hk
          · rw [← Option.some.inj hs]
            exact hk
          · simp at hs

/-- The processes are counted. -/
theorem Sim.step_nprocs {s s' : Sys A M R} {st : ℤ → Stage ℤ A} (h : Sim cp s st) {l : Label A}
    (hs : s.step cp l = some s') (hn : s.kernel.procNprocs + allocs [l] < 2 ^ 31) :
    s'.kernel.procNprocs = s.kernel.procNprocs + allocs [l] := by
  cases l with
  | procAlloc =>
      obtain ⟨pid, -, hn', -⟩ := sim_procAlloc h hn hs
      exact hn'
  | sysSend | sysRecv | procSetReady | procFree | ret | intr =>
      exact h.step_nprocs_of_ne hs (by simp)

/-- The calls in the log are the returns of the run. -/
structure Logged (cp : Memcpy A M R) (log : List (Returned A R)) (es : List (Ev ℤ A)) : Prop where
  sends : ∀ p, okSends p log = sendsDone p es
  recvs : ∀ q, List.Forall₂ (fun d (r : Received R) => r.sender = d.1 ∧ r.retval = 0 ∧
    r.size ≤ SYSCALL_MSG_LEN ∧ ∃ c, Holds cp c d.2 ∧ r.buf = cp.copyOut r.size c)
    (recvsDone q es) (Sys.recvs q log)

/-- A step that returns to no process. -/
theorem Logged.quiet {log : List (Returned A R)} {es : List (Ev ℤ A)} (h : Logged cp log es)
    {e : Ev ℤ A} (hs : Rendezvous.sendDone e = none) (hr : Rendezvous.recvDone e = none) :
    Logged cp log (es ++ [e]) := by
  refine ⟨fun p => ?_, fun q => ?_⟩
  · rw [sendsDone, Rendezvous.filterMap_snoc, hs, Option.toList_none, List.append_nil]
    exact h.sends p
  · rw [recvsDone, Rendezvous.filterMap_snoc, hr, Option.toList_none, List.append_nil]
    exact h.recvs q

theorem Logged.send {log : List (Returned A R)} {es : List (Ev ℤ A)} (h : Logged cp log es)
    (p q : ℤ) (a : A) (ok : Bool) :
    Logged cp (log ++ [.send p q a (if ok then 0 else -1)]) (es ++ [.retSend p q a ok]) := by
  refine ⟨fun r => ?_, fun r => ?_⟩
  · have hr := h.sends r
    rw [okSends] at hr
    rw [okSends, List.filterMap_append, hr, sendsDone, sendsDone, Rendezvous.filterMap_snoc,
      Rendezvous.given_append]
    congr 1
    cases ok <;> by_cases hp : p = r <;> simp [hp, Rendezvous.sendDone, given]
  · have hr := h.recvs r
    rw [Sys.recvs, recvsDone] at hr
    rw [Sys.recvs, List.filterMap_append, recvsDone, Rendezvous.filterMap_snoc]
    simpa [Rendezvous.recvDone] using hr

theorem Logged.recv {log : List (Returned A R)} {es : List (Ev ℤ A)} (h : Logged cp log es)
    (q t : ℤ) {a : A} {c : M} {n : ℕ} (hn : n ≤ SYSCALL_MSG_LEN) (hc : Holds cp c a) :
    Logged cp (log ++ [.recv q n t (cp.copyOut n c) 0]) (es ++ [.retRecv q t a]) := by
  refine ⟨fun r => ?_, fun r => ?_⟩
  · have hr := h.sends r
    rw [okSends] at hr
    rw [okSends, List.filterMap_append, hr, sendsDone, sendsDone, Rendezvous.filterMap_snoc]
    simp [Rendezvous.sendDone]
  · have hr := h.recvs r
    rw [Sys.recvs] at hr
    rw [Sys.recvs, List.filterMap_append, recvsDone, Rendezvous.filterMap_snoc,
      Rendezvous.taken_append]
    refine List.rel_append hr ?_
    by_cases hq : q = r
    · simp only [hq, Rendezvous.recvDone, taken, Option.toList_some, List.filterMap_cons,
        List.filterMap_nil, if_true, List.forall₂_cons, List.forall₂_nil_left_iff, and_true]
      exact ⟨trivial, trivial, hn, c, hc, rfl⟩
    · simp [hq, Rendezvous.recvDone, taken]

/-- What a step does to the stages. -/
theorem sim_step {s s' : Sys A M R} {st : ℤ → Stage ℤ A} (h : Sim cp s st) {l : Label A}
    (hn : s.kernel.procNprocs + allocs [l] < 2 ^ 31) (hs : s.step cp l = some s') :
    ∃ st', Sim cp s' st' ∧ (st' = st ∨ ∃ e, Step st e st') := by
  cases l with
  | sysSend q a =>
      by_cases hsize : cp.size a ≤ SYSCALL_MSG_LEN
      · obtain ⟨hsim, he⟩ := sim_sysSend h hsize hs
        exact ⟨_, hsim, Or.inr ⟨_, he⟩⟩
      · obtain rfl := sysSend_refused hsize hs
        exact ⟨st, h.log _, Or.inl rfl⟩
  | sysRecv n =>
      by_cases hsize : n ≤ SYSCALL_MSG_LEN
      · obtain ⟨hsim, he⟩ := sim_sysRecv h hsize hs
        exact ⟨_, hsim, Or.inr ⟨_, he⟩⟩
      · obtain rfl := sysRecv_refused hsize hs
        exact ⟨st, h.log _, Or.inl rfl⟩
  | procSetReady pid => exact ⟨_, (sim_procSetReady h hs).1, Or.inr ⟨_, (sim_procSetReady h hs).2⟩⟩
  | procFree pid => exact ⟨_, (sim_procFree h hs).1, Or.inr ⟨_, (sim_procFree h hs).2⟩⟩
  | procAlloc =>
      obtain ⟨pid, -, -, -, hsim, he⟩ := sim_procAlloc h hn hs
      exact ⟨_, hsim, Or.inr ⟨_, he⟩⟩
  | ret =>
      obtain ⟨hsim, ⟨q, a, ok, -, -, he⟩ | ⟨t, a, c, n, -, -, -, -, he⟩⟩ := sim_ret h hs
      · exact ⟨_, hsim, Or.inr ⟨_, he⟩⟩
      · exact ⟨_, hsim, Or.inr ⟨_, he⟩⟩
  | intr id tty =>
      cases id with
      | timer => exact ⟨st, sim_timer h hs, Or.inl rfl⟩
      | soft =>
          rcases sim_soft h hs with ⟨hsim, -⟩ | ⟨-, st', e, hsim, he, -⟩
          · exact ⟨st, hsim, Or.inl rfl⟩
          · exact ⟨st', hsim, Or.inr ⟨e, he⟩⟩

/-- A pid that was given out and that no process has any more. -/
theorem Sim.dead {s : Sys A M R} {st : ℤ → Stage ℤ A} (h : Sim cp s st) {p : ℤ}
    (hv : s.kernel.view p = .dead) (hp : 0 < p ∧ p ≤ s.kernel.procNprocs) : st p = .dead := by
  have hstage := h.stage p
  rw [hv] at hstage
  cases hst : st p with
  | dead => rfl
  | unborn => exact absurd ((h.unborn p).1 hst) (by omega)
  | loading | user | sendCall q a | recvCall | waitSend q a | waitRecv | sent q a ok | got t a =>
      rw [hst] at hstage
      exact absurd hstage.1 (by simp)

end Sys

/-! ### Messages of bytes -/

/-- The arguments `msg` and `size` of a call of `sys_send`. -/
structure SendArgs where
  msg : ℕ → UInt8
  size : ℕ

/-- The contents of a `struct sys_msg`. -/
abbrev Content : Type := Fin 1024 → UInt8

/-- The copies of bytes.  The bytes that are stored at `buf` are the first ones of the contents. -/
def memcpy : Memcpy SendArgs Content (List UInt8) where
  size := SendArgs.size
  copyIn a content := fun i => if i.val < a.size then a.msg i.val else content i
  copyOut n content := (List.ofFn content).take n

/-- A message of four bytes. -/
def fourBytes : SendArgs := ⟨fun _ => 7, 4⟩

/-- The first process is started with its memory cleared. -/
def clearBoot : Sys SendArgs Content (List UInt8) :=
  Sys.boot (fun _ => ⟨.unused, ⟨0, 0, fun _ => 0⟩, 0⟩) fun _ => 0

end Egos
