/-
**Waiting for a receiver that is dead.**

`proc_send` looks for the receiver by its pid alone, and a slot keeps its pid after `proc_free`.  So
a process may start to wait for a process that is not there any more, and then waits forever; it
also waits forever if the process it waits for is freed.  There are no other ways: if no call names
a pid whose slots are all unused, and no process is freed while another one waits to send to it,
then every process that waits to send has a live receiver, and calls for pids without a live process
are refused.

Main definitions:

* `Egos.Kernel.Live`, `Egos.Kernel.WaitsOnLive` — the processes that wait to send have live
  receivers;
* `Egos.Sys.ReceiverKept` — the condition on the steps of a run.

Main results:

* `Egos.waits_on_live` — **the condition is sufficient, and necessary as long as the counter of
  processes does not overflow**;
* `Egos.waits_on_freed` — a run in which a process waits for one that has been freed.
-/

import Egos.Delivery
import Egos.Runs

set_option autoImplicit false

namespace Egos

namespace Kernel

variable {M : Type} {k k' : Kernel M}

/-- The pid belongs to a live process. -/
def Live (k : Kernel M) (q : ℤ) : Prop :=
  ∃ i, (k.procSet i).pid = q ∧ (k.procSet i).status ≠ .unused

instance (k : Kernel M) (q : ℤ) : Decidable (k.Live q) :=
  inferInstanceAs (Decidable (∃ i, (k.procSet i).pid = q ∧ (k.procSet i).status ≠ .unused))

/-- Every process that waits to send has a live receiver. -/
def WaitsOnLive (k : Kernel M) : Prop :=
  ∀ i, (k.procSet i).status = .waitToSend → k.Live (k.procSet i).receiverPid

instance (k : Kernel M) : Decidable k.WaitsOnLive :=
  inferInstanceAs (Decidable (∀ i, (k.procSet i).status = .waitToSend →
    k.Live (k.procSet i).receiverPid))

/-! ### Operations that neither free a process nor make one wait to send -/

/-- The live processes stay, and no process starts to wait for a receiver. -/
structure Harmless (k k' : Kernel M) : Prop where
  live : ∀ i, (k.procSet i).status ≠ .unused →
    (k'.procSet i).pid = (k.procSet i).pid ∧ (k'.procSet i).status ≠ .unused
  waits : ∀ i, (k'.procSet i).status = .waitToSend → (k.procSet i).status = .waitToSend ∧
    (k'.procSet i).receiverPid = (k.procSet i).receiverPid

theorem Harmless.refl (k : Kernel M) : Harmless k k := ⟨fun _ h => ⟨rfl, h⟩, fun _ h => ⟨h, rfl⟩⟩

theorem Harmless.trans {k₁ k₂ k₃ : Kernel M} (h : Harmless k₁ k₂) (h' : Harmless k₂ k₃) :
    Harmless k₁ k₃ := by
  refine ⟨fun i hi => ?_, fun i hi => ?_⟩
  · obtain ⟨hpid, hi₂⟩ := h.live i hi
    obtain ⟨hpid', hi₃⟩ := h'.live i hi₂
    exact ⟨hpid'.trans hpid, hi₃⟩
  · obtain ⟨hi₂, hr⟩ := h'.waits i hi
    obtain ⟨hi₁, hr'⟩ := h.waits i hi₂
    exact ⟨hi₁, hr.trans hr'⟩

theorem Harmless.live_pid (h : Harmless k k') {q : ℤ} (hq : k.Live q) : k'.Live q := by
  obtain ⟨i, rfl, hi⟩ := hq
  exact ⟨i, h.live i hi⟩

theorem Harmless.waitsOnLive (h : Harmless k k') (hk : k.WaitsOnLive) : k'.WaitsOnLive := by
  intro i hi
  obtain ⟨hi', hr⟩ := h.waits i hi
  rw [hr]
  exact h.live_pid (hk i hi')

theorem harmless_procSetStatus (pid : ℤ) {st : ProcStatus} (h₁ : st ≠ .unused)
    (h₂ : st ≠ .waitToSend) : Harmless k (k.procSetStatus pid st) := by
  refine ⟨fun i hi => ?_, fun i hi => ?_⟩
  · simp only [procSetStatus]
    split
    · exact ⟨rfl, h₁⟩
    · exact ⟨rfl, hi⟩
  · simp only [procSetStatus] at hi ⊢
    split at hi
    · exact absurd hi h₂
    · rename_i hp
      rw [if_neg hp]
      exact ⟨hi, rfl⟩

/-- An assignment to a slot that keeps its pid. -/
theorem harmless_setProc {i : Fin 8} {f : Process → Process}
    (hpid : (f (k.procSet i)).pid = (k.procSet i).pid)
    (hlive : (k.procSet i).status ≠ .unused → (f (k.procSet i)).status ≠ .unused)
    (hwait : (f (k.procSet i)).status = .waitToSend → (k.procSet i).status = .waitToSend ∧
      (f (k.procSet i)).receiverPid = (k.procSet i).receiverPid) : Harmless k (k.setProc i f) := by
  refine ⟨fun j hj => ?_, fun j hj => ?_⟩
  · by_cases hji : j = i
    · subst hji
      rw [setProc_self]
      exact ⟨hpid, hlive hj⟩
    · rw [setProc_of_ne k hji]
      exact ⟨rfl, hj⟩
  · by_cases hji : j = i
    · subst hji
      rw [setProc_self] at hj ⊢
      exact hwait hj
    · rw [setProc_of_ne k hji] at hj ⊢
      exact ⟨hj, rfl⟩

/-- The machine does not matter. -/
theorem Harmless.congr (h : Harmless k k') {k'' : Kernel M} (hp : k''.procSet = k'.procSet) :
    Harmless k k'' := by
  refine ⟨?_, ?_⟩
  · rw [hp]
    exact h.live
  · rw [hp]
    exact h.waits

theorem harmless_switchTo (next : Fin 8) : Harmless k (k.switchTo next) := by
  refine Harmless.trans ?_ (harmless_procSetStatus _ (by simp) (by simp))
  split
  · exact (harmless_setProc (k := k) (i := next) (f := fun p =>
      { p with
        savedRegister := Function.update (Function.update p.savedRegister 8 APPS_ARG) 9
          (APPS_ARG + 4)
        mepc := APPS_ENTRY }) rfl (fun h => h) fun h => ⟨h, rfl⟩).congr rfl
  · exact (Harmless.refl k).congr rfl

theorem harmless_procSetRunnable (k : Kernel M) (pid : ℤ) : Harmless k (k.procSetRunnable pid) :=
  harmless_procSetStatus pid (by simp) (by simp)

theorem harmless_procYield (h : k.procYield = .ok k') : Harmless k k' := by
  obtain ⟨next, -, -, rfl⟩ := procYield_cases h
  refine Harmless.trans ?_ (harmless_switchTo next)
  rw [parkCurr]
  split
  · exact harmless_procSetRunnable k _
  · exact Harmless.refl k

theorem harmless_procAlloc {pid : ℤ} (h : k.procAlloc = .ok (pid, k')) : Harmless k k' := by
  rw [procAlloc] at h
  split at h
  · rename_i i hu
    have hst : (k.procSet i).status = .unused := by
      simpa [findUnused] using List.find?_some hu
    simp only [Except.ok.injEq, Prod.mk.injEq] at h
    obtain ⟨-, rfl⟩ := h
    refine ⟨fun j hj => ?_, fun j hj => ?_⟩
    · have hji : j ≠ i := by
        rintro rfl
        exact hj hst
      simpa only [setProc_of_ne k hji, true_and] using hj
    · by_cases hji : j = i
      · subst hji
        simp at hj
      · simpa only [setProc_of_ne k hji, and_true] using hj
  · simp at h

/-! ### Messages -/

theorem harmless_procRecv (h : k.procRecv = .ok k') : Harmless k k' := by
  rw [procRecv] at h
  split at h
  · exact (harmless_setProc rfl (by simp) (by simp)).trans (harmless_procYield h)
  · refine Harmless.trans ?_ (harmless_procYield h)
    exact (harmless_procSetRunnable k _).congr rfl

/-- A message to a pid that is live, if a slot holds it. -/
theorem procSendTo_waitsOnLive {q : ℤ} (hk : k.WaitsOnLive) (hq : k.Holds q → k.Live q)
    (h : k.procSendTo q = .ok k') : k'.WaitsOnLive := by
  rw [procSendTo] at h
  split at h
  · rename_i i hf
    obtain ⟨j, hj, hlive⟩ := hq ⟨i, findPid_some hf⟩
    split at h
    · refine (harmless_procYield h).waitsOnLive fun a ha => ?_
      -- the receiver is as live as before, whether it is the current process or another one
      have hstay : ∀ r, k.Live r → (k.setProc k.procCurrIdx fun p =>
          { p with status := .waitToSend, receiverPid := q }).Live r := by
        rintro r ⟨b, rfl, hb⟩
        refine ⟨b, pid_setProc rfl b, ?_⟩
        by_cases hbc : b = k.procCurrIdx
        · simp [hbc]
        · rw [setProc_of_ne k hbc]
          exact hb
      by_cases hac : a = k.procCurrIdx
      · subst hac
        rw [setProc_self]
        exact hstay q ⟨j, hj, hlive⟩
      · rw [setProc_of_ne k hac] at ha ⊢
        exact hstay _ (hk a ha)
    · refine Harmless.waitsOnLive ?_ hk
      refine Harmless.trans ?_ (harmless_procYield h)
      exact (harmless_procSetRunnable k _).congr rfl
  · obtain rfl := Except.ok.inj h
    exact hk

/-- A message to a pid that no slot holds. -/
theorem procSendTo_refused {q : ℤ} (hq : ¬ k.Holds q) (h : k.procSendTo q = .ok k') :
    (k'.mem k.vmPid).retval = -1 ∧ k'.procSet = k.procSet := by
  rw [procSendTo] at h
  split at h
  · rename_i i hf
    exact absurd ⟨i, findPid_some hf⟩ hq
  · obtain rfl := Except.ok.inj h
    simp [setSc]

theorem procSyscall_waitsOnLive (hk : k.WaitsOnLive)
    (hq : k.sc.type = .send → k.Holds k.sc.msg.receiver → k.Live k.sc.msg.receiver)
    (h : k.procSyscall = .ok k') :
    k'.WaitsOnLive ∧ (k.sc.type = .send → ¬ k.Live k.sc.msg.receiver →
      (k'.mem k.vmPid).retval = -1 ∧ k'.procSet = k.procSet) := by
  rw [procSyscall] at h
  cases hty : k.sc.type with
  | unused => simp [hty] at h
  | ncalls => simp [hty] at h
  | recv =>
      simp only [hty] at h
      exact ⟨(harmless_procRecv h).waitsOnLive hk, fun hs => absurd hs (by simp)⟩
  | send =>
      simp only [hty] at h
      -- before the receiver is looked for, only the `struct syscall` is written to
      rw [procSend] at h
      obtain ⟨k₁, h, hset, hvm, hrecv⟩ : ∃ k₁ : Kernel M,
          k₁.procSendTo k₁.sc.msg.receiver = .ok k' ∧ k₁.procSet = k.procSet ∧
          k₁.vmPid = k.vmPid ∧ k₁.sc.msg.receiver = k.sc.msg.receiver :=
        ⟨_, h, rfl, rfl, by simp [setSc, sc]⟩
      rw [hrecv] at h
      have hlive : k₁.Live = k.Live := by
        funext q
        rw [Live, hset, Live]
      have hholds : k₁.Holds = k.Holds := by
        funext q
        rw [Holds, hset, Holds]
      have hk₁ : k₁.WaitsOnLive := by
        rw [WaitsOnLive, hset, hlive]
        exact hk
      rw [← hholds, ← hlive] at hq
      rw [← hlive, ← hvm, ← hset]
      refine ⟨procSendTo_waitsOnLive hk₁ (hq hty) h, fun _ hdead => ?_⟩
      exact procSendTo_refused (fun hh => hdead (hq hty hh)) h

/-! ### Traps and the end of processes -/

/-- The trap handles a call of `sys_send` for `q`. -/
def HandlesSend (k : Kernel M) (id : IntrId) (tty : Bool) (q : ℤ) : Prop :=
  id = .soft ∧ ¬ (tty = true ∧ k.currPid ≥ GPID_USER_START) ∧ k.sc.type = .send ∧
    k.sc.msg.receiver = q

theorem kernelEntry_waitsOnLive {id : IntrId} {tty : Bool} (hk : k.WaitsOnLive)
    (hq : ∀ q, k.HandlesSend id tty q → k.Holds q → k.Live q)
    (h : k.kernelEntry id tty = .ok k') :
    k'.WaitsOnLive ∧ ∀ q, k.HandlesSend id tty q → ¬ k.Live q →
      (k'.mem k.vmPid).retval = -1 ∧ ∀ i, (k'.procSet i).status = (k.procSet i).status := by
  rw [kernelEntry] at h
  -- saving the context
  obtain ⟨k₀, h, hslot, hvm, hmem, hidx⟩ : ∃ k₀ : Kernel M,
      (do
        let k ← k₀.intrEntry id tty
        return { k with
          mepc := (k.procSet k.procCurrIdx).mepc
          registers := (k.procSet k.procCurrIdx).savedRegister }) = .ok k' ∧
      (∀ i, (k₀.procSet i).pid = (k.procSet i).pid ∧ (k₀.procSet i).status = (k.procSet i).status ∧
        (k₀.procSet i).receiverPid = (k.procSet i).receiverPid) ∧
      k₀.vmPid = k.vmPid ∧ k₀.mem = k.mem ∧ k₀.procCurrIdx = k.procCurrIdx := by
    refine ⟨_, h, fun i => ?_, rfl, rfl, rfl⟩
    by_cases hi : i = k.procCurrIdx
    · subst hi
      simp
    · simp [setProc_of_ne k hi]
  have hlive : k₀.Live = k.Live := by
    funext q
    simp only [Live, hslot]
  have hsc : k₀.sc = k.sc := by rw [sc, hvm, hmem, sc]
  have hcurr : k₀.currPid = k.currPid := by rw [currPid, hidx, (hslot _).1, currPid]
  have hk₀ : k₀.WaitsOnLive := by
    simp only [WaitsOnLive, hslot, hlive]
    exact hk
  cases hi : k₀.intrEntry id tty with
  | error e => simp [hi, bind, Except.bind] at h
  | ok k₁ =>
      simp only [hi, bind, Except.bind, pure, Except.pure, Except.ok.injEq] at h
      subst h
      change k₁.WaitsOnLive ∧ ∀ q, k.HandlesSend id tty q → ¬ k.Live q →
        (k₁.mem k.vmPid).retval = -1 ∧ ∀ i, (k₁.procSet i).status = (k.procSet i).status
      unfold intrEntry at hi
      rw [hcurr] at hi
      split at hi
      · rename_i hc
        obtain rfl := Except.ok.inj hi
        exact ⟨hk₀, fun q hh => absurd (hc.1.symm.trans hh.1) (by simp)⟩
      · split at hi
        · rename_i hc
          obtain rfl := Except.ok.inj hi
          exact ⟨hk₀, fun q hh => absurd hc hh.2.1⟩
        · rename_i hc
          cases id with
          | timer =>
              exact ⟨(harmless_procYield hi).waitsOnLive hk₀, fun q hh => absurd hh.1 (by simp)⟩
          | soft =>
              have hq₀ : k₀.sc.type = .send → k₀.Holds k₀.sc.msg.receiver →
                  k₀.Live k₀.sc.msg.receiver := by
                rw [hsc, hlive]
                intro hty hh
                refine hq _ ⟨rfl, hc, hty, rfl⟩ ?_
                simpa only [Holds, hslot] using hh
              obtain ⟨hw, hret⟩ := procSyscall_waitsOnLive hk₀ hq₀ hi
              refine ⟨hw, fun q hh hdead => ?_⟩
              obtain ⟨-, -, hty, rfl⟩ := hh
              rw [← hsc, ← hlive] at hdead
              obtain ⟨hr, hset⟩ := hret (hsc ▸ hty) hdead
              refine ⟨hvm ▸ hr, fun i => ?_⟩
              rw [hset, (hslot i).2.1]

/-- `proc_free(pid)` ends the process `p`. -/
def Frees (pid p : ℤ) : Prop := if pid = -1 then p ≥ GPID_USER_START else p = pid

instance (pid p : ℤ) : Decidable (Frees pid p) :=
  inferInstanceAs (Decidable (if pid = -1 then p ≥ GPID_USER_START else p = pid))

theorem procSet_procFree_of_frees {pid : ℤ} {i : Fin 8} (h : Frees pid (k.procSet i).pid) :
    (k.procFree pid).procSet i = { k.procSet i with status := .unused } := by
  rw [procFree_eq]
  exact if_pos h

theorem procSet_procFree_of_not_frees {pid : ℤ} {i : Fin 8} (h : ¬ Frees pid (k.procSet i).pid) :
    (k.procFree pid).procSet i = k.procSet i := by
  rw [procFree_eq]
  exact if_neg h

/-- No process that stays waits for one that is freed. -/
def FreesNoReceiver (k : Kernel M) (pid : ℤ) : Prop :=
  ∀ i, (k.procSet i).status = .waitToSend → Frees pid (k.procSet i).receiverPid →
    Frees pid (k.procSet i).pid

instance (k : Kernel M) (pid : ℤ) : Decidable (k.FreesNoReceiver pid) :=
  inferInstanceAs (Decidable (∀ i, (k.procSet i).status = .waitToSend →
    Frees pid (k.procSet i).receiverPid → Frees pid (k.procSet i).pid))

theorem procFree_waitsOnLive {pid : ℤ} (hk : k.WaitsOnLive) (h : k.FreesNoReceiver pid) :
    (k.procFree pid).WaitsOnLive := by
  intro i hi
  by_cases hf : Frees pid (k.procSet i).pid
  · rw [procSet_procFree_of_frees hf] at hi
    simp at hi
  · rw [procSet_procFree_of_not_frees hf] at hi ⊢
    obtain ⟨j, hj, hlive⟩ := hk i hi
    have hjf : ¬ Frees pid (k.procSet j).pid := by
      rw [hj]
      exact fun hr => hf (h i hi hr)
    refine ⟨j, ?_⟩
    rw [procSet_procFree_of_not_frees hjf]
    exact ⟨hj, hlive⟩

/-! ### The condition is necessary -/

theorem Process.view_ne_dead {p : Process} : p.view ≠ .dead ↔ p.status ≠ .unused := by
  rw [Process.view]
  cases p.status <;> simp

theorem TableOk.live_iff (hk : k.TableOk) {q : ℤ} : k.Live q ↔ k.view q ≠ .dead := by
  constructor
  · rintro ⟨i, rfl, hi⟩
    have hpos := hk.pos i hi
    rw [hk.view_pid (by omega)]
    exact Process.view_ne_dead.2 hi
  · intro hv
    obtain ⟨i, hi, -, hvi⟩ := hk.exists_slot hv
    exact ⟨i, hi, Process.view_ne_dead.1 (hvi ▸ hv)⟩

/-- A process that waits to send, by its pid. -/
theorem TableOk.waits_view (hk : k.TableOk) {p q : ℤ} (hv : k.view p = .waitSend q)
    (hw : k.WaitsOnLive) : k.Live q := by
  obtain ⟨i, -, -, hvi⟩ := hk.exists_slot (show k.view p ≠ .dead by rw [hv]; simp)
  rw [hv, Process.view] at hvi
  cases hst : (k.procSet i).status <;> simp [hst] at hvi
  exact hvi ▸ hw i hst

/-- Sending to a pid whose slots are unused makes the sender wait for it. -/
theorem AtUser.live_of_send {id : IntrId} {tty : Bool} {q : ℤ} (hk : k.AtUser)
    (h : k.kernelEntry id tty = .ok k') (hw : k'.WaitsOnLive) (hh : k.HandlesSend id tty q)
    (hq : k.Holds q) : k.Live q := by
  obtain ⟨rfl, hc, hty, hrecv⟩ := hh
  rw [sc, hk.vm] at hty hrecv
  obtain ⟨hk', -, -, hout⟩ := kernelEntry_soft hk h
  rw [if_neg hc] at hout
  by_contra hdead
  have hv : k.view q = .dead := by
    by_contra hne
    exact hdead (hk.live_iff.2 hne)
  generalize hview : k'.view = v at hout
  generalize hmem : k'.mem = m at hout
  cases hout with
  | recvBlock hty' _ => simp [hty] at hty'
  | recvDeliver t hty' _ _ => simp [hty] at hty'
  | sendFail _ hno => exact hno (hrecv ▸ hq)
  | sendDeliver _ hv' =>
      rw [hrecv, hv] at hv'
      simp at hv'
  | sendBlock _ _ _ =>
      have hne : q ≠ k.currPid := by
        rintro rfl
        rw [hk.view_currPid] at hv
        simp at hv
      have hlive := hk'.waits_view (p := k.currPid) (q := q) (by simp [hview, hrecv]) hw
      rw [hk'.live_iff, hview, Function.update_of_ne hne] at hlive
      exact hlive hv

/-- Freeing a receiver leaves its senders waiting. -/
theorem freesNoReceiver_of_waitsOnLive {pid : ℤ} (hw : (k.procFree pid).WaitsOnLive) :
    k.FreesNoReceiver pid := by
  intro i hi hr
  by_contra hf
  obtain ⟨j, hj, hlive⟩ := hw i (by rw [procSet_procFree_of_not_frees hf]; exact hi)
  rw [procSet_procFree_of_not_frees hf] at hj
  by_cases hjf : Frees pid (k.procSet j).pid
  · rw [procSet_procFree_of_frees hjf] at hlive
    exact hlive rfl
  · rw [procSet_procFree_of_not_frees hjf] at hj
    exact hjf (hj ▸ hr)

end Kernel

/-! ### Runs of the system -/

namespace Sys

variable {A M R : Type} {cp : Memcpy A M R} {s s' : Sys A M R}

/-- A call of `sys_send` for a pid of unused slots is not handled, and no process is freed while
another one, which stays, waits to send to it. -/
def ReceiverKept (s : Sys A M R) : Label A → Prop
  | .intr id tty => ∀ q, s.kernel.HandlesSend id tty q → s.kernel.Holds q → s.kernel.Live q
  | .procFree pid => s.kernel.FreesNoReceiver pid
  | _ => True

instance (s : Sys A M R) : DecidablePred (s.ReceiverKept : Label A → Prop)
  | .intr id tty =>
      decidable_of_iff (id = .soft ∧ ¬ (tty = true ∧ s.kernel.currPid ≥ GPID_USER_START) ∧
          s.kernel.sc.type = .send → (∃ i, (s.kernel.procSet i).pid = s.kernel.sc.msg.receiver) →
          s.kernel.Live s.kernel.sc.msg.receiver)
        ⟨fun h _ hh => hh.2.2.2 ▸ h ⟨hh.1, hh.2.1, hh.2.2.1⟩,
          fun h hh => h _ ⟨hh.1, hh.2.1, hh.2.2, rfl⟩⟩
  | .procFree pid => inferInstanceAs (Decidable (s.kernel.FreesNoReceiver pid))
  | .sysSend _ _ | .sysRecv _ | .ret | .procAlloc | .procSetReady _ =>
      inferInstanceAs (Decidable True)

/-- A call of `sys_send` for a pid without a live process returns `-1`, and the caller keeps its
status. -/
def DeadRefused (s : Sys A M R) (l : Label A) (s' : Sys A M R) : Prop :=
  ∀ id tty q, l = .intr id tty → s.kernel.HandlesSend id tty q → ¬ s.kernel.Live q →
    (s'.kernel.mem s.kernel.vmPid).retval = -1 ∧
      ∀ i, (s'.kernel.procSet i).status = (s.kernel.procSet i).status

theorem step_procFree {pid : ℤ} (hs : s.step cp (.procFree pid) = some s') :
    s'.kernel = s.kernel.procFree pid := by
  simp only [step] at hs
  split at hs
  · rw [← Option.some.inj hs]
  · simp at hs

/-- All other steps are harmless. -/
theorem step_harmless {l : Label A} (hs : s.step cp l = some s')
    (hi : ∀ id tty, l ≠ .intr id tty) (hf : ∀ pid, l ≠ .procFree pid) :
    s.kernel.Harmless s'.kernel := by
  cases l with
  | intr id tty => exact absurd rfl (hi id tty)
  | procFree pid => exact absurd rfl (hf pid)
  | sysSend q a =>
      simp only [step, sysSend] at hs
      split at hs
      · rw [← Option.some.inj hs]
        split <;> exact (Kernel.Harmless.refl _).congr rfl
      · simp at hs
  | sysRecv n =>
      simp only [step, sysRecv] at hs
      split at hs
      · rw [← Option.some.inj hs]
        split <;> exact (Kernel.Harmless.refl _).congr rfl
      · simp at hs
  | ret =>
      simp only [step, ret] at hs
      split at hs
      · split at hs
        · rw [← Option.some.inj hs]
          exact Kernel.Harmless.refl _
        · rw [← Option.some.inj hs]
          exact Kernel.Harmless.refl _
        · simp at hs
      · simp at hs
  | procAlloc =>
      simp only [step] at hs
      split at hs
      · split at hs
        · rename_i pid k hk
          rw [← Option.some.inj hs]
          exact Kernel.harmless_procAlloc hk
        · simp at hs
      · simp at hs
  | procSetReady pid =>
      simp only [step] at hs
      split at hs
      · rw [← Option.some.inj hs]
        exact Kernel.harmless_procSetStatus pid (by simp) (by simp)
      · simp at hs

theorem step_waitsOnLive {l : Label A} (hw : s.kernel.WaitsOnLive)
    (hs : s.step cp l = some s') (hl : s.ReceiverKept l) :
    s'.kernel.WaitsOnLive ∧ s.DeadRefused l s' := by
  cases l with
  | intr id tty =>
      obtain ⟨hw', hret⟩ := Kernel.kernelEntry_waitsOnLive hw hl (step_intr hs)
      refine ⟨hw', fun id' tty' q he => ?_⟩
      cases he
      exact hret q
  | procFree pid =>
      rw [step_procFree hs]
      exact ⟨Kernel.procFree_waitsOnLive hw hl, fun _ _ _ he => absurd he (by simp)⟩
  | sysSend | sysRecv | ret | procAlloc | procSetReady =>
      refine ⟨(step_harmless hs (by simp) (by simp)).waitsOnLive hw, fun _ _ _ he => ?_⟩
      exact absurd he (by simp)

theorem boot_waitsOnLive (mem : ℤ → Syscall M) (registers : Fin 29 → UInt32) :
    (boot mem registers : Sys A M R).kernel.WaitsOnLive := by
  intro i hi
  by_cases h0 : i = 0
  · subst h0
    simp [boot, Kernel.boot] at hi
  · simp [boot, Kernel.boot, h0] at hi

theorem step_receiverKept {l : Label A} (hk : s.kernel.AtUser) (hs : s.step cp l = some s')
    (hw : s'.kernel.WaitsOnLive) : s.ReceiverKept l := by
  cases l with
  | intr id tty => exact fun q hh hq => hk.live_of_send (step_intr hs) hw hh hq
  | procFree pid => exact Kernel.freesNoReceiver_of_waitsOnLive (step_procFree hs ▸ hw)
  | sysSend | sysRecv | ret | procAlloc | procSetReady => trivial

end Sys

/-- **No process waits for a dead receiver, if the steps of the run keep the receivers**, and calls
for pids without a live process return `-1`.  Unless more processes are created than there are
positive pids, no other runs have this property. -/
theorem waits_on_live {A M R : Type} (cp : Memcpy A M R) (mem : ℤ → Syscall M)
    (registers : Fin 29 → UInt32) (ls : List (Label A)) :
    (Runs.EveryStep (fun s l => s.step cp l) (fun s l _ => s.ReceiverKept l)
        (Sys.boot mem registers) ls →
      Runs.EveryStep (fun s l => s.step cp l)
        (fun s l s' => s'.kernel.WaitsOnLive ∧ s.DeadRefused l s') (Sys.boot mem registers) ls) ∧
    (1 + Sys.allocs ls < 2 ^ 31 →
      Runs.EveryStep (fun s l => s.step cp l)
        (fun s l s' => s'.kernel.WaitsOnLive ∧ s.DeadRefused l s') (Sys.boot mem registers) ls →
      Runs.EveryStep (fun s l => s.step cp l) (fun s l _ => s.ReceiverKept l)
        (Sys.boot mem registers) ls) := by
  constructor
  · refine Runs.EveryStep.imp (I := fun s _ => s.kernel.WaitsOnLive) ?_ ls _ ?_
    · intro s l _ s' hw hs hl
      have h := Sys.step_waitsOnLive hw hs hl
      exact ⟨h, h.1⟩
    · exact Sys.boot_waitsOnLive mem registers
  · intro hn
    refine Runs.EveryStep.imp (I := fun s ls => (∃ st, Sys.Sim cp s st) ∧
      s.kernel.procNprocs + Sys.allocs ls < 2 ^ 31) ?_ ls _ ?_
    · rintro s l ls s' ⟨⟨st, hsim⟩, hn⟩ hs ⟨hw, -⟩
      have hn' : Sys.allocs (l :: ls) = Sys.allocs [l] + Sys.allocs ls := Sys.allocs_append [l] ls
      obtain ⟨st', hsim', -⟩ := Sys.sim_step hsim (by omega) hs
      refine ⟨Sys.step_receiverKept hsim.kernel hs hw, ⟨st', hsim'⟩, ?_⟩
      rw [hsim.step_nprocs hs (by omega)]
      omega
    · exact ⟨⟨_, Sys.sim_boot mem registers⟩, hn⟩

/-- The first process waits to send to the second one, which sends to a pid that no slot holds. -/
def waitAndFail : List (Label SendArgs) :=
  [.procAlloc, .procSetReady 2, .sysSend 2 fourBytes, .intr .soft false, .sysSend 9 fourBytes,
    .intr .soft false]

/-- The first process waits for a live receiver, and the call of the second one has returned
`-1`. -/
theorem waits_on_live_waitAndFail :
    ((clearBoot.run memcpy waitAndFail).any fun s => (s.kernel.procSet 0).status = .waitToSend ∧
      (s.kernel.procSet 0).receiverPid = 2 ∧ s.kernel.Live 2 ∧ (s.kernel.mem 2).retval = -1) =
        true ∧
    Runs.EveryStep (fun s l => s.step memcpy l) (fun s l _ => s.ReceiverKept l) clearBoot
      waitAndFail ∧
    Runs.EveryStep (fun s l => s.step memcpy l)
      (fun s l s' => s'.kernel.WaitsOnLive ∧ s.DeadRefused l s') clearBoot waitAndFail := by
  have hkept : Runs.EveryStep (fun s l => s.step memcpy l) (fun s l _ => s.ReceiverKept l)
      clearBoot waitAndFail := by
    decide +kernel
  have hlive := (waits_on_live memcpy _ _ _).1 hkept
  exact ⟨by decide +kernel, (waits_on_live memcpy _ _ _).2 (by decide) hlive, hlive⟩

/-- The user process 5 sends a request to the server 3, which asks the server 2 for a block.  In the
meantime the shell lets 1 free all user processes. -/
def killedClientRun : List (Label SendArgs) :=
  [.procAlloc, .procAlloc, .procAlloc, .procAlloc, .procSetReady 2, .procSetReady 3,
    .procSetReady 4, .procSetReady 5,
    -- 1, 2 and 3 wait for requests, and 4 is the shell
    .sysRecv 1024, .intr .soft false, .sysRecv 1024, .intr .soft false, .sysRecv 1024,
    .intr .soft false, .intr .timer false,
    -- 5 and 3
    .sysSend 3 fourBytes, .intr .soft false, .ret, .sysSend 2 fourBytes, .intr .soft false,
    -- 4, 5 and 1
    .sysSend 1 fourBytes, .intr .soft false, .intr .timer false, .ret, .procFree (-1),
    .sysRecv 1024, .intr .soft false,
    -- 2 and 3
    .ret, .sysSend 3 fourBytes, .intr .soft false, .ret, .sysRecv 1024, .intr .soft false,
    -- 4 and 2
    .intr .timer false, .ret, .sysRecv 1024, .intr .soft false,
    -- 3 replies
    .ret, .sysSend 5 fourBytes]

/-- **A server waits forever for a client that was killed**: its call of `sys_send` is not refused,
although its receiver is dead, and the server is left waiting. -/
theorem waits_on_freed :
    ∃ s s', clearBoot.run memcpy killedClientRun = some s ∧
      s.step memcpy (.intr .soft false) = some s' ∧ s.curr = 3 ∧
      s.kernel.HandlesSend .soft false 5 ∧ ¬ s.kernel.Live 5 ∧
      (s'.kernel.procSet 2).pid = 3 ∧ (s'.kernel.procSet 2).status = .waitToSend ∧
      ¬ s'.kernel.WaitsOnLive := by
  have h : (clearBoot.run memcpy killedClientRun).any (fun s =>
      decide (s.curr = 3 ∧ (s.kernel.sc.type = .send ∧ s.kernel.sc.msg.receiver = 5) ∧
        ¬ s.kernel.Live 5) && (s.step memcpy (.intr .soft false)).any fun s' =>
          (s'.kernel.procSet 2).pid = 3 ∧ (s'.kernel.procSet 2).status = .waitToSend ∧
            ¬ s'.kernel.WaitsOnLive) = true := by
    decide +kernel
  obtain ⟨s, hs, h⟩ := (Option.any_eq_true _ _).1 h
  obtain ⟨h₁, h₂⟩ := Bool.and_eq_true_iff.1 h
  obtain ⟨s', hs', h₂⟩ := (Option.any_eq_true _ _).1 h₂
  obtain ⟨hcurr, hsend, hdead⟩ := of_decide_eq_true h₁
  exact ⟨s, s', hs, hs', hcurr, ⟨rfl, by simp, hsend⟩, hdead, of_decide_eq_true h₂⟩

end Egos
