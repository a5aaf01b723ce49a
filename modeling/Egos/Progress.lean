/-
**An interrupt returns to a process.**

`proc_yield` ends in `FATAL` if no process can be scheduled.  In a run in which

* nobody disturbs a server that waits for a reply,
* `sys_proc` does not take the end of an older process for that of a command which has failed, and
* no process waits to send to a dead one,

this does not happen: the processes that wait are not waiting for each other only.

Main definitions:

* `Egos.Runnable` — the stages in which a process can be scheduled;
* `Egos.OnLive` — nobody waits to send to a process that is not there.

Main results:

* `Egos.Flowing.exists_runnable` — **some process can run**;
* `Egos.Kernel.kernelEntry_error` — when the kernel stops;
* `Egos.interrupt_returns` — **after such a run, the next interrupt returns to a process.**
-/

import Egos.Flow
import Egos.DeadReceiver
import Egos.Scheduling

set_option autoImplicit false

namespace Egos

open Function (update update_of_ne update_self)
open Rendezvous (Stage Ev Step)

variable {B : Type} {env : Env B} {st st' : ℤ → Stage ℤ (Msg B)} {pr : Progs B} {n : ℕ}
  {p q : ℤ} {m : Msg B} {t : Talk}

/-! ### Some process can run -/

/-- The process can be scheduled. -/
def Runnable : Stage ℤ (Msg B) → Prop
  | .user | .sendCall _ _ | .recvCall | .sent _ _ _ | .got _ _ => True
  | _ => False

/-- Nobody waits to send to a process that is not there. -/
def OnLive (st : ℤ → Stage ℤ (Msg B)) : Prop :=
  ∀ p q m, st p = .waitSend q m → st q ≠ .dead ∧ st q ≠ .unborn

namespace Flowing

/-- The shell sends requests, and then it expects no message. -/
theorem shell_sending (h : Flowing env st pr n t) (hp : st GPID_SHELL = .waitSend q m) :
    q = GPID_PROCESS ∧ shellWaits (st GPID_SHELL) (pr.act GPID_SHELL) = .nothing := by
  obtain ⟨hne, -, -, hop⟩ := h.serving.of_sending (Or.inr hp)
  have hfit := (h.serving.loc _ hne).fits
  rw [hp]
  generalize pr.act GPID_SHELL = b at hop hfit
  cases b with
  | command | killall =>
      obtain ⟨rfl, -⟩ := Op.send.inj hop
      exact ⟨rfl, rfl⟩
  | reply | notify =>
      exact absurd (show (4 : ℤ) = 2 ∨ (4 : ℤ) = 3 from hfit) (by decide)
  | call r k => exact absurd rfl (Serving.call_fits hfit).2.1
  | exit => exact absurd (show (4 : ℤ) ≥ 5 from hfit) (by decide)
  | spawned | exited => exact absurd (show (4 : ℤ) = 1 from hfit) (by decide)
  | _ => simp [Act.op] at hop

section Blocked

variable (h : Flowing env st pr n t) (hlive : OnLive st) (hall : ∀ p, ¬ Runnable (st p))

include h hall

/-- What a process waits for. -/
theorem blocked (hdead : st p ≠ .dead) (hborn : st p ≠ .unborn) (hload : st p ≠ .loading) :
    (∃ q m, st p = .waitSend q m ∧ (pr.act p).op .messages (pr.tag p) = .send q m) ∨
      st p = .waitRecv ∧ (pr.act p).op .messages (pr.tag p) = .recv := by
  have hst := (h.serving.loc p hborn).stage
  have hrun := hall p
  generalize hx : st p = x at *
  cases x with
  | unborn => exact absurd rfl hborn
  | dead => exact absurd rfl hdead
  | loading => exact absurd rfl hload
  | waitSend q m => exact Or.inl ⟨q, m, rfl, hst⟩
  | waitRecv => exact Or.inr ⟨rfl, hst⟩
  | user | sendCall | recvCall | sent | got => exact absurd trivial hrun

/-- `sys_proc` waits for something. -/
theorem process_blocked :
    (∃ q m, st GPID_PROCESS = .waitSend q m ∧
        (pr.act GPID_PROCESS).op .messages (pr.tag GPID_PROCESS) = .send q m) ∨
      st GPID_PROCESS = .waitRecv ∧
        (pr.act GPID_PROCESS).op .messages (pr.tag GPID_PROCESS) = .recv := by
  refine h.blocked hall h.process.1 h.process.2 fun hload => ?_
  have hloc := h.serving.loc GPID_PROCESS h.process.2
  have hst := hloc.stage
  rw [hload] at hst
  have hfit := hloc.fits
  rw [show pr.act GPID_PROCESS = .user from hst] at hfit
  exact absurd (show (1 : ℤ) ≥ 5 from hfit) (by decide)

/-- Only processes of the user are loading. -/
theorem five_le_of_loading (hp : st p = .loading) : 5 ≤ p := by
  have hl := h.load p hp
  have hop := h.process_blocked hall
  generalize pr.act GPID_PROCESS = b at hl hop
  cases b with
  | sysReady | appReady => simp [Act.op] at hop
  | call r k | await r k =>
      cases k with
      | load => exact hl.2
      | _ => exact hl.elim
  | fatal => exact hl
  | _ => exact hl.elim

/-- A server that is not about to make a call of its own waits to receive. -/
theorem server_stage {r : Request} (hborn : st r.server ≠ .unborn) :
    (∃ q m, st r.server = .waitSend q m ∧
        (pr.act r.server).op .messages (pr.tag r.server) = .send q m) ∨
      st r.server = .waitRecv ∧ (pr.act r.server).op .messages (pr.tag r.server) = .recv :=
  h.blocked hall (h.servers r) hborn fun hload => by
    have := h.five_le_of_loading hall hload
    have := Serving.server_eq r
    omega

/-- Nobody waits with a notification. -/
theorem not_notify (hp : st p = .waitSend q m) : pr.act p ≠ .notify := by
  intro ha
  obtain ⟨hne, hd, hsent, hop⟩ := h.serving.of_sending (Or.inr hp)
  have hexp := h.serving.notify p ⟨ha, hsent, hd, hne⟩
  rw [ha] at hop
  obtain ⟨rfl, -⟩ := Op.send.inj hop
  rcases h.process_blocked hall with ⟨q, m', h1, hop1⟩ | ⟨h1, -⟩
  · generalize pr.act GPID_PROCESS = b at hexp hop1
    cases b <;> simp [expecting] at hexp <;> simp [Act.op] at hop1
  · exact h.met p GPID_PROCESS m hp h1

/-- The notification that `sys_proc` waits for is sent. -/
theorem process_not_booting {k : ℕ} (h1 : st GPID_PROCESS = .waitRecv) :
    pr.act GPID_PROCESS ≠ .sysWait k := by
  intro ha
  obtain ⟨hnote, -, hd, hu⟩ := h.notified k ha (by rw [h1]; simp)
  have hfit := (h.serving.loc _ hu).fits
  rw [hnote] at hfit
  have h23 : (k : ℤ) + 2 = 2 ∨ (k : ℤ) + 2 = 3 := hfit
  have hload : st ((k : ℤ) + 2) ≠ .loading := fun hl => by
    have := h.five_le_of_loading hall hl
    omega
  rcases h.blocked hall hd hu hload with ⟨q, m, hs, -⟩ | ⟨-, hop⟩
  · exact h.not_notify hall hs hnote
  · rw [hnote] at hop
    simp [Act.op] at hop

include hlive

/-- Nobody waits with a reply: its receiver would be ready for it. -/
theorem not_reply (hp : st p = .waitSend q m) (c : ℤ) (m' : Msg B) : pr.act p ≠ .reply c m' := by
  intro ha
  obtain ⟨hne, hd, hsent, hop⟩ := h.serving.of_sending (Or.inr hp)
  rw [ha] at hop
  obtain ⟨rfl, rfl⟩ := Op.send.inj hop
  rcases h.serving.debt p c m'.tag hd hne (by rw [ha]; exact .reply hsent) with
    hdead | ⟨r, -, ⟨-, ⟨k, -, hs⟩ | ⟨k, -, hs⟩⟩, -⟩
  · exact (hlive p c m' hp).1 hdead
  · have hrun := hall c
    generalize st c = y at hs hrun
    cases y with
    | sent => exact hrun trivial
    | _ => exact hs trivial
  · rcases hs with hs | hs | hs
    · exact hall c (by rw [hs]; trivial)
    · exact hall c (by rw [hs]; trivial)
    · exact h.met p c m' hp hs

/-- `sys_file` does not wait to send. -/
theorem file_not_sending (q : ℤ) (m : Msg B) : st GPID_FILE ≠ .waitSend q m := by
  intro hp
  obtain ⟨hne, -, -, hop⟩ := h.serving.of_sending (Or.inr hp)
  have hfit := (h.serving.loc _ hne).fits
  have hreply := h.not_reply hlive hall hp
  have hnotify := h.not_notify hall hp
  generalize pr.act GPID_FILE = b at hop hfit hreply hnotify
  cases b with
  | reply c m' => exact hreply c m' rfl
  | notify => exact hnotify rfl
  | call r k => exact (Serving.call_fits hfit).1 rfl
  | exit => exact absurd (show (2 : ℤ) ≥ 5 from hfit) (by decide)
  | command | killall => exact absurd (show (2 : ℤ) = 4 from hfit) (by decide)
  | spawned | exited => exact absurd (show (2 : ℤ) = 1 from hfit) (by decide)
  | _ => simp [Act.op] at hop

/-- `sys_file` owes nothing. -/
theorem file_owes_nothing {c : ℤ} {tag : ℤ × ℕ} (hborn : st GPID_FILE ≠ .unborn) :
    ¬ Owes (st GPID_FILE) (pr.act GPID_FILE) c tag := by
  intro ho
  have hfit := (h.serving.loc _ hborn).fits
  rcases h.server_stage hall (r := .fileRead 0 0) hborn with ⟨q, m, hs, -⟩ | ⟨hs, hop⟩
  · exact h.file_not_sending hlive hall q m hs
  · have hop' : (pr.act GPID_FILE).op .messages (pr.tag GPID_FILE) = .recv := hop
    have hs' : st GPID_FILE = .waitRecv := hs
    rw [hs'] at ho
    generalize pr.act GPID_FILE = b at ho hop' hfit
    cases ho with
    | got hg => simp at hg
    | call => exact Act.op_call_ne_recv hop'
    | @await r' c tag name =>
        have hk : (Kont.lookup c tag name : Kont B).Fits GPID_FILE r' := hfit
        exact (Serving.call_fits hk).1 rfl
    | reply => simp [Act.op] at hop'

/-- A request to a server would be taken. -/
theorem not_requesting {r : Request} {k : Kont B} (hs : ∀ q m, st r.server ≠ .waitSend q m)
    (hp : st p = .waitSend q m) : pr.act p ≠ .call r k := by
  intro ha
  obtain ⟨hne, -, -, hop⟩ := h.serving.of_sending (Or.inr hp)
  rw [ha] at hop
  obtain ⟨-, rfl, -⟩ := Act.op_call_send hop
  rcases h.server_stage hall (hlive p _ m hp).2 with ⟨q, m', hv, -⟩ | ⟨hv, -⟩
  · exact hs q m' hv
  · exact h.met p _ m hp hv

/-- `sys_dir` does not wait to send. -/
theorem dir_not_sending (q : ℤ) (m : Msg B) : st GPID_DIR ≠ .waitSend q m := by
  intro hp
  obtain ⟨hne, -, -, hop⟩ := h.serving.of_sending (Or.inr hp)
  have hfit := (h.serving.loc _ hne).fits
  cases ha : pr.act GPID_DIR with
  | reply c m' => exact h.not_reply hlive hall hp c m' ha
  | notify => exact h.not_notify hall hp ha
  | call r k =>
      rw [ha] at hfit
      have hr : r.server = GPID_FILE := (Serving.call_fits hfit).2.2 rfl
      refine h.not_requesting hlive hall (fun q m => ?_) hp ha
      rw [hr]
      exact h.file_not_sending hlive hall q m
  | exit =>
      rw [ha] at hfit
      exact absurd (show (3 : ℤ) ≥ 5 from hfit) (by decide)
  | command | killall =>
      rw [ha] at hfit
      exact absurd (show (3 : ℤ) = 4 from hfit) (by decide)
  | spawned | exited =>
      rw [ha] at hfit
      exact absurd (show (3 : ℤ) = 1 from hfit) (by decide)
  | _ =>
      rw [ha] at hop
      simp [Act.op] at hop

theorem server_not_sending (r : Request) (q : ℤ) (m : Msg B) : st r.server ≠ .waitSend q m := by
  cases r with
  | dirLookup => exact h.dir_not_sending hlive hall q m
  | fileRead => exact h.file_not_sending hlive hall q m

/-- A process that waits for the reply of `sys_file` would have it. -/
theorem not_awaiting_file {r : Request} {k : Kont B} (hr : r.server = GPID_FILE)
    (hp : st p = .waitRecv) : pr.act p ≠ .await r k := by
  intro ha
  have hne : st p ≠ .unborn := by rw [hp]; simp
  have ho := h.served p _ r ⟨rfl, Or.inr ⟨k, ha, Or.inr (Or.inr hp)⟩⟩
  have hborn := h.serving.server_born hne (Or.inr ha)
  rw [hr] at ho hborn
  exact h.file_owes_nothing hlive hall hborn ho

/-- **Nobody waits in a call.** -/
theorem not_awaiting {r : Request} {k : Kont B} (hp : st p = .waitRecv) :
    pr.act p ≠ .await r k := by
  intro ha
  rcases Serving.server_eq r with hr | hr
  · exact h.not_awaiting_file hlive hall hr hp ha
  have hne : st p ≠ .unborn := by rw [hp]; simp
  have ho := h.served p _ r ⟨rfl, Or.inr ⟨k, ha, Or.inr (Or.inr hp)⟩⟩
  have hborn := h.serving.server_born hne (Or.inr ha)
  rcases h.server_stage hall hborn with ⟨q, m, hs, -⟩ | ⟨hs, hop⟩
  · exact h.server_not_sending hlive hall r q m hs
  · have hfit := (h.serving.loc _ hborn).fits
    rw [hs] at ho
    -- `sys_dir` has taken the request, and waits for a block itself
    generalize hb : pr.act r.server = b at ho hop hfit
    generalize pr.tag p = tag at ho
    cases ho with
    | got hg => simp at hg
    | call => exact Act.op_call_ne_recv hop
    | @await r' _ _ name =>
        have hk : (Kont.lookup p tag name : Kont B).Fits r.server r' := hfit
        exact h.not_awaiting_file hlive hall ((Serving.call_fits hk).2.2 hr) hs hb
    | reply => simp [Act.op] at hop

/-- A process of the user does not wait. -/
theorem user_not_waiting (h5 : 5 ≤ p) (hdead : st p ≠ .dead) (hborn : st p ≠ .unborn)
    (h1 : st GPID_PROCESS = .waitRecv) : st p = .loading := by
  by_contra hload
  have hfit := (h.serving.loc p hborn).fits
  rcases h.blocked hall hdead hborn hload with ⟨q, m, hs, hop⟩ | ⟨hs, hop⟩
  · cases ha : pr.act p with
    | exit =>
        rw [ha] at hop
        obtain ⟨rfl, -⟩ := Op.send.inj hop
        exact h.met p _ m hs h1
    | call r k =>
        exact h.not_requesting hlive hall (h.server_not_sending hlive hall r) hs ha
    | reply | notify =>
        rw [ha] at hfit
        have : p = 2 ∨ p = 3 := hfit
        omega
    | command | killall =>
        rw [ha] at hfit
        have : p = 4 := hfit
        omega
    | spawned | exited =>
        rw [ha] at hfit
        have : p = 1 := hfit
        omega
    | _ =>
        rw [ha] at hop
        simp [Act.op] at hop
  · rcases Serving.recv_cases hfit hop with ha | ⟨r, k, ha⟩ | ⟨k, -, hp1⟩ | ⟨-, hp4⟩
    · rw [ha] at hfit
      have : p = 1 ∨ p = 2 ∨ p = 3 := hfit
      omega
    · exact h.not_awaiting hlive hall hs ha
    · have : p = 1 := hp1
      omega
    · have : p = 4 := hp4
      omega

/-- `sys_proc` does not wait to send. -/
theorem process_not_sending (h1 : st GPID_PROCESS = .waitSend q m) : False := by
  obtain ⟨hne, -, -, hop⟩ := h.serving.of_sending (Or.inr h1)
  have hfit := (h.serving.loc _ hne).fits
  have hagree := h.dialogue.agree
  -- the shell is there, and does not expect the message
  have hshell : q = GPID_SHELL → (pr.act GPID_PROCESS).hidden GPID_PROCESS = false →
      procOwes (st GPID_PROCESS) (pr.act GPID_PROCESS) t ≠ .nothing → False := by
    rintro rfl hh howes
    obtain ⟨hd4, hb4⟩ := hlive _ _ m h1
    have hh4 := shell_shown (h.serving.loc _ hb4).fits
    have hst1 : atomicStage st pr GPID_PROCESS = st GPID_PROCESS := shown_of_not_hidden hh
    have hst4 : atomicStage st pr GPID_SHELL = st GPID_SHELL := shown_of_not_hidden hh4
    have hact1 : pr.atomic.act GPID_PROCESS = pr.act GPID_PROCESS := Act.whole_of_not_hidden hh
    have hact4 : pr.atomic.act GPID_SHELL = pr.act GPID_SHELL := Act.whole_of_not_hidden hh4
    rw [hst1, hst4, hact1, hact4] at hagree
    rcases h.blocked hall hd4 hb4 fun hl => absurd (h.five_le_of_loading hall hl) (by decide) with
      ⟨q', m', hs, -⟩ | ⟨hs, -⟩
    · rw [(h.shell_sending hs).2] at hagree
      exact howes hagree.symm
    · exact h.met _ _ m h1 hs
  cases ha : pr.act GPID_PROCESS with
  | spawned | exited =>
      rw [ha] at hop hshell
      obtain ⟨rfl, -⟩ := Op.send.inj hop
      refine hshell rfl rfl ?_
      rw [h1]
      simp [procOwes]
  | call r k => exact h.not_requesting hlive hall (h.server_not_sending hlive hall r) h1 ha
  | reply | notify =>
      rw [ha] at hfit
      exact absurd (show (1 : ℤ) = 2 ∨ (1 : ℤ) = 3 from hfit) (by decide)
  | exit =>
      rw [ha] at hfit
      exact absurd (show (1 : ℤ) ≥ 5 from hfit) (by decide)
  | command | killall =>
      rw [ha] at hfit
      exact absurd (show (1 : ℤ) = 4 from hfit) (by decide)
  | _ =>
      rw [ha] at hop
      simp [Act.op] at hop

/-- `sys_proc` does not wait for requests. -/
theorem process_not_serving (h1 : st GPID_PROCESS = .waitRecv) :
    pr.act GPID_PROCESS ≠ .serve := by
  intro ha
  have hact1 : pr.atomic.act GPID_PROCESS = .serve := congrArg Act.whole ha
  have hst1 : atomicStage st pr GPID_PROCESS = .waitRecv := by
    rw [atomicStage, ha, shown_of_not_hidden rfl, h1]
  have hfits := h.dialogue.fits
  have hagree := h.dialogue.agree
  have hevents := h.dialogue.events
  have hlive4 := h.dialogue.live.2
  rw [hact1] at hfits hagree
  rw [hst1] at hagree
  obtain ⟨hrest, -⟩ := hfits
  cases t with
  | asked | spawned | ended => exact hrest
  | running pid =>
      -- the command that runs in the foreground
      obtain ⟨-, -, hd, hu⟩ := hrest
      have h5 := h.spawns pid (Talk.spawn_mem hevents (Or.inr (Or.inl rfl)))
      have hload := h.user_not_waiting hlive hall h5 (mt shown_eq_dead.2 hd)
        (mt shown_eq_unborn.2 hu) h1
      have hl := h.load pid hload
      rw [ha] at hl
      exact hl
  | idle =>
      -- the shell reads a command
      have hboot := h.serving.boot
      rw [ha] at hboot
      have hn : 4 ≤ n := hboot
      have hb4 : st GPID_SHELL ≠ .unborn := fun hu =>
        Dialogue.shell_born h.atomic hn (shown_eq_unborn.2 hu)
      have hd4 : st GPID_SHELL ≠ .dead := fun hd => hlive4 (shown_eq_dead.2 hd)
      have hfit4 := (h.serving.loc _ hb4).fits
      have hh4 := shell_shown hfit4
      have hst4 : atomicStage st pr GPID_SHELL = st GPID_SHELL := shown_of_not_hidden hh4
      have hact4 : pr.atomic.act GPID_SHELL = pr.act GPID_SHELL := Act.whole_of_not_hidden hh4
      rw [hst4, hact4] at hagree
      rcases h.blocked hall hd4 hb4 fun hl => absurd (h.five_le_of_loading hall hl) (by decide) with
        ⟨q, m, hs, -⟩ | ⟨hs, hop⟩
      · obtain ⟨rfl, -⟩ := h.shell_sending hs
        exact h.met _ _ m hs h1
      · rw [hs] at hagree
        rcases Serving.recv_cases hfit4 hop with ha4 | ⟨r, k, ha4⟩ | ⟨k, -, h41⟩ |
          ⟨⟨cmd, ha4⟩ | ha4, -⟩
        · rw [ha4] at hfit4
          exact absurd (show (4 : ℤ) = 1 ∨ (4 : ℤ) = 2 ∨ (4 : ℤ) = 3 from hfit4) (by decide)
        · exact h.not_awaiting hlive hall hs ha4
        · exact absurd h41 (by decide)
        · rw [ha4] at hagree
          simp [shellWaits, procOwes, Talk.pending] at hagree
        · rw [ha4] at hagree
          simp [shellWaits, procOwes, Talk.pending] at hagree

end Blocked

/-- **Some process can run.** -/
theorem exists_runnable (h : Flowing env st pr n t) (hlive : OnLive st) :
    ∃ p, Runnable (st p) := by
  by_contra hnone
  have hall : ∀ p, ¬ Runnable (st p) := fun p hp => hnone ⟨p, hp⟩
  rcases h.process_blocked hall with ⟨q, m, h1, -⟩ | ⟨h1, hop⟩
  · exact h.process_not_sending hlive hall h1
  · have hfit := (h.serving.loc _ h.process.2).fits
    rcases Serving.recv_cases hfit hop with ha | ⟨r, k, ha⟩ | ⟨k, ha, -⟩ | ⟨-, h4⟩
    · exact h.process_not_serving hlive hall h1 ha
    · exact h.not_awaiting hlive hall h1 ha
    · exact h.process_not_booting hall h1 ha
    · exact absurd h4 (by decide)

end Flowing

/-! ### When the kernel stops -/

namespace Kernel

variable {M : Type} {k : Kernel M} {e : String}

theorem procYield_error (h : k.procYield = .error e) (j : Fin 8) :
    ProcStatus.schedulable (k.procSet j).status = false := by
  rw [procYield] at h
  cases hn : k.nextIdx with
  | some next => simp [hn] at h
  | none =>
      by_contra hj
      obtain ⟨next, hnext⟩ := RoundRobin.exists_scan
        (fun j => ProcStatus.schedulable (k.procSet j).status) (Bool.eq_true_of_not_eq_false hj)
        k.procCurrIdx
      rw [nextIdx_eq_scan, hnext] at hn
      simp at hn

/-- **No other process can run.** -/
def Alone (k : Kernel M) : Prop := ∀ p, p ≠ k.currPid → k.view p ≠ .run

theorem AtUser.alone (hk : k.AtUser)
    (h : ∀ j, j ≠ k.procCurrIdx → ProcStatus.schedulable (k.procSet j).status = false) :
    k.Alone := by
  intro p hp hv
  obtain ⟨i, hi, -, hvi⟩ := hk.exists_slot (show k.view p ≠ .dead by rw [hv]; simp)
  have hi' := h i fun hc => hp (by rw [← hi, hc]; rfl)
  rw [hv, Process.view] at hvi
  cases hst : (k.procSet i).status <;> simp [hst, ProcStatus.schedulable] at hvi hi'

/-- The current process waits. -/
theorem AtUser.block_error (hk : k.AtUser) {f : Process → Process}
    (h : (k.setProc k.procCurrIdx f).procYield = .error e) : k.Alone :=
  hk.alone fun j hj => by
    have hs := procYield_error h j
    rwa [setProc_of_ne k hj] at hs

/-- The current process can go on. -/
theorem AtUser.wake_ok (hk : k.AtUser) (pid src dst : ℤ) :
    ((k.copyMsg src dst).procSetRunnable pid).procYield ≠ .error e := by
  intro h
  have hs := procYield_error h k.procCurrIdx
  have hrun : (k.procSet k.procCurrIdx).status = .running := (hk.running _).2 rfl
  have hset : ((k.copyMsg src dst).procSetRunnable pid).procSet k.procCurrIdx =
      if (k.procSet k.procCurrIdx).pid = pid then
        { k.procSet k.procCurrIdx with status := .runnable }
      else k.procSet k.procCurrIdx := rfl
  rw [hset] at hs
  split at hs
  · simp [ProcStatus.schedulable] at hs
  · simp [hrun, ProcStatus.schedulable] at hs

theorem procRecv_error (hk : k.AtUser) (h : k.procRecv = .error e) :
    (∀ s, k.view s ≠ .waitSend k.currPid) ∧ k.Alone := by
  rw [procRecv] at h
  rcases findSender_cases k with ⟨hs, hall⟩ | ⟨i, hst, -, hpid⟩
  · rw [hs, if_pos rfl] at h
    refine ⟨fun s hv => ?_, hk.block_error h⟩
    obtain ⟨i, -, -, hvi⟩ := hk.exists_slot (show k.view s ≠ .dead by rw [hv]; simp)
    rw [hv, Process.view] at hvi
    cases hsi : (k.procSet i).status <;> simp [hsi] at hvi
    rcases hall i hsi with hne | hm
    · exact hne hvi
    · have := hk.le i
      omega
  · have hipos := hk.pos i (by simp [hst])
    rw [if_neg (by omega)] at h
    exact absurd h (hk.wake_ok _ _ _)

theorem procSendTo_error (hk : k.AtUser) (h : k.procSendTo q = .error e) :
    k.Holds q ∧ k.view q ≠ .waitRecv ∧ k.Alone := by
  rw [procSendTo] at h
  cases hf : k.findPid q with
  | none => simp [hf] at h
  | some i =>
      rw [hf] at h
      by_cases hst : (k.procSet i).status = .waitToRecv
      · simp only [hst, ne_eq, not_true_eq_false, if_false] at h
        exact absurd h (hk.wake_ok _ _ _)
      · simp only [hst, ne_eq, not_false_eq_true, if_true] at h
        refine ⟨⟨i, findPid_some hf⟩, ?_, hk.block_error h⟩
        rw [view, hf]
        change (k.procSet i).view ≠ .waitRecv
        rw [Process.view]
        cases hsi : (k.procSet i).status <;> simp [hsi] at hst ⊢

/-- What is true when the kernel stops in a system call. -/
inductive Stops (k : Kernel M) : Prop
  | recv (hty : (k.mem k.currPid).type = .recv) (hs : ∀ s, k.view s ≠ .waitSend k.currPid)
      (h : k.Alone)
  | send (hty : (k.mem k.currPid).type = .send)
      (hq : k.Holds (k.mem k.currPid).msg.receiver)
      (hw : k.view (k.mem k.currPid).msg.receiver ≠ .waitRecv) (h : k.Alone)
  | unknown (hr : (k.mem k.currPid).type ≠ .recv) (hs : (k.mem k.currPid).type ≠ .send)

theorem procSyscall_error (hk : k.AtUser) (h : k.procSyscall = .error e) : k.Stops := by
  rw [procSyscall, sc, hk.vm] at h
  obtain ⟨hk₁, hmem₁⟩ := hk.setSc fun sc => { sc with retval := 0, type := .unused }
  cases hty : (k.mem k.currPid).type with
  | unused | ncalls => exact .unknown (by rw [hty]; simp) (by rw [hty]; simp)
  | recv =>
      simp only [hty] at h
      obtain ⟨hs, halone⟩ := procRecv_error hk₁ h
      exact .recv hty hs halone
  | send =>
      simp only [hty] at h
      rw [procSend] at h
      obtain ⟨hk₂, hmem₂⟩ := hk₁.setSc fun sc =>
        { sc with msg := { sc.msg with sender := k.currPid } }
      have hq : ((k.setSc fun sc => { sc with retval := 0, type := .unused }).setSc fun sc =>
          { sc with msg := { sc.msg with sender := k.currPid } }).sc.msg.receiver =
          (k.mem k.currPid).msg.receiver := by
        rw [sc, hk₂.vm, hmem₂, hmem₁]
        simp
      simp only [currPid_setSc, hq] at h
      obtain ⟨hh, hw, halone⟩ := procSendTo_error hk₂ h
      exact .send hty hh hw halone

/-- **When `kernel_entry` stops**: the current process would have to wait, and no other can run. -/
theorem kernelEntry_error {id : IntrId} {tty : Bool} (hk : k.AtUser)
    (h : k.kernelEntry id tty = .error e) :
    id = .soft ∧ ¬ (tty = true ∧ k.currPid ≥ GPID_USER_START) ∧ k.Stops := by
  rw [kernelEntry] at h
  obtain ⟨hk₀, hsame, hcurr, -⟩ := hk.save rfl
  generalize hk0 : (k.setProc k.procCurrIdx fun p =>
    { p with mepc := k.mepc, savedRegister := k.registers }) = k₀ at *
  cases hi : k₀.intrEntry id tty with
  | ok k₁ => simp [hi, bind, Except.bind, pure, Except.pure] at h
  | error e' =>
      unfold intrEntry at hi
      split at hi
      · simp at hi
      · split at hi
        · simp at hi
        · rename_i hc
          rw [hcurr] at hc
          cases id with
          | timer =>
              -- the current process itself can be scheduled
              have hs := procYield_error hi k₀.procCurrIdx
              rw [(hk₀.running _).2 rfl] at hs
              simp [ProcStatus.schedulable] at hs
          | soft =>
              refine ⟨rfl, hc, ?_⟩
              have halone : k₀.Alone → k.Alone := fun ha p hp => by
                rw [← hsame.view]
                exact ha p (hcurr ▸ hp)
              cases procSyscall_error hk₀ hi with
              | recv hty hs ha =>
                  rw [hcurr, hsame.mem] at hty
                  rw [hcurr, hsame.view] at hs
                  exact .recv hty hs (halone ha)
              | send hty hq hw ha =>
                  rw [hcurr, hsame.mem] at hty hq hw
                  rw [hsame.view] at hw
                  obtain ⟨i, hi⟩ := hq
                  exact .send hty ⟨i, (hsame.pid i).symm.trans hi⟩ hw (halone ha)
              | unknown hr hs =>
                  rw [hcurr, hsame.mem] at hr hs
                  exact .unknown hr hs

end Kernel

/-! ### Runs -/

namespace World

variable {w w' : World B}

/-- A process that has raised a software interrupt. -/
def Invoking : Phase (Msg B) → Prop
  | .sendCall _ _ | .recvCall _ => True
  | .user | .sendTrap _ _ | .recvTrap _ => False

instance : DecidablePred (Invoking : Phase (Msg B) → Prop)
  | .sendCall _ _ | .recvCall _ => inferInstanceAs (Decidable True)
  | .user | .sendTrap _ _ | .recvTrap _ => inferInstanceAs (Decidable False)

/-- The current process has raised a software interrupt. -/
def Invoked (w : World B) : Prop := Invoking (w.sys.phase w.sys.curr)

instance (w : World B) : Decidable w.Invoked :=
  inferInstanceAs (Decidable (Invoking (w.sys.phase w.sys.curr)))

theorem runnable_iff (hsim : Sys.Sim copyMsg w.sys st) :
    Runnable (st p) ↔ w.sys.kernel.view p = .run := by
  have hst := hsim.stage p
  generalize st p = x at hst
  cases x with
  | unborn | dead => simp [Runnable, show w.sys.kernel.view p = .dead from hst]
  | _ => simp [Runnable, hst.1]

theorem view_eq_dead (hsim : Sys.Sim copyMsg w.sys st) :
    w.sys.kernel.view p = .dead ↔ st p = .dead ∨ st p = .unborn := by
  have hst := hsim.stage p
  generalize st p = x at hst
  cases x with
  | unborn | dead => simp [show w.sys.kernel.view p = .dead from hst]
  | _ => simp [hst.1]

theorem onLive_of_kernel (hsim : Sys.Sim copyMsg w.sys st)
    (hw : w.sys.kernel.WaitsOnLive) : OnLive st := by
  intro p q m hp
  have hst := hsim.stage p
  rw [hp] at hst
  have hlive := hsim.kernel.live_iff.1 (hsim.kernel.waits_view hst.1 hw)
  exact not_or.1 (mt (view_eq_dead hsim).2 hlive)

/-- If the kernel stops, the current process would have to wait, and no process could run. -/
theorem stuck_cases {id : Kernel.IntrId} {tty : Bool} {e : String}
    (hsim : Sys.Sim copyMsg w.sys st) (hlive : OnLive st) (hcall : id = .soft → w.Invoked)
    (hkept : w.sys.ReceiverKept (.intr id tty)) (h : w.sys.kernel.kernelEntry id tty = .error e) :
    ∃ st' ev, Step st ev st' ∧ w.Trap (.intr id tty) ev ∧ OnLive st' ∧ ∀ p, ¬ Runnable (st' p) := by
  obtain ⟨rfl, hc, hstops⟩ := Kernel.kernelEntry_error hsim.kernel h
  have hst := hsim.stage w.sys.curr
  have hrun := hsim.curr_run.of_run
  have hnot : ∀ x : Stage ℤ (Msg B), w.sys.kernel.Alone → ¬ Runnable x →
      ∀ p, ¬ Runnable (update st w.sys.curr x p) := by
    intro x halone hx p
    by_cases hp : p = w.sys.curr
    · rwa [hp, update_self]
    · rw [update_of_ne hp, runnable_iff hsim]
      exact halone p hp
  have honlive : ∀ x : Stage ℤ (Msg B), x ≠ .dead → x ≠ .unborn →
      (∀ q m, x = .waitSend q m → st q ≠ .dead ∧ st q ≠ .unborn) →
      OnLive (update st w.sys.curr x) := by
    intro x hd hu hw p q m hp
    have hthere : st q ≠ .dead ∧ st q ≠ .unborn := by
      by_cases hpc : p = w.sys.curr
      · subst hpc
        rw [update_self] at hp
        exact hw q m hp
      · rw [update_of_ne hpc] at hp
        exact hlive p q m hp
    by_cases hq : q = w.sys.curr
    · rw [hq, update_self]
      exact ⟨hd, hu⟩
    · rwa [update_of_ne hq]
  have hinv := hcall rfl
  rw [Invoked] at hinv
  cases hph : w.sys.phase w.sys.curr with
  | user | sendTrap | recvTrap =>
      rw [hph] at hinv
      exact hinv.elim
  | recvCall size =>
      rw [hph] at hrun
      rw [show st w.sys.curr = .recvCall from hrun] at hst
      have hty : (w.sys.kernel.mem w.sys.kernel.currPid).type = .recv := hst.2.2
      cases hstops with
      | send hty' => simp [hty] at hty'
      | unknown hr => exact absurd hty hr
      | recv _ hs halone =>
          refine ⟨_, .wait w.sys.curr, .wait hrun fun s a hw => ?_, ⟨tty, rfl, hc, rfl⟩,
            honlive _ (by simp) (by simp) (by simp), hnot _ halone id⟩
          have hsa := hsim.stage s
          rw [hw] at hsa
          exact hs s hsa.1
  | sendCall q a =>
      rw [hph] at hrun
      rw [show st w.sys.curr = .sendCall q a from hrun] at hst
      obtain ⟨-, -, hty, hrecv, -⟩ := hst
      have hty' : (w.sys.kernel.mem w.sys.kernel.currPid).type = .send := hty
      have hrecv' : (w.sys.kernel.mem w.sys.kernel.currPid).msg.receiver = q := hrecv
      cases hstops with
      | recv hty'' => simp [hty'] at hty''
      | unknown _ hs => exact absurd hty' hs
      | send _ hq hw halone =>
          rw [hrecv'] at hq hw
          have hl : w.sys.kernel.Live q := hkept q ⟨rfl, hc, by
            rw [Kernel.sc, hsim.kernel.vm]
            exact ⟨hty', hrecv'⟩⟩ hq
          have hthere := not_or.1 (mt (view_eq_dead hsim).2 (hsim.kernel.live_iff.1 hl))
          refine ⟨_, .block w.sys.curr, .block hrun fun hwait => ?_, ⟨tty, rfl, hc, rfl⟩,
            honlive _ (by simp) (by simp) (fun q' m' he => ?_), hnot _ halone id⟩
          · have hsq := hsim.stage q
            rw [hwait] at hsq
            exact hw hsq.1
          · obtain ⟨rfl, -⟩ := Stage.waitSend.inj he
            exact hthere

theorem flowing_boot (mem : ℤ → Syscall (Msg B)) (registers : Fin 29 → UInt32) :
    Flowing env Sys.stage₀ (boot mem registers).progs 1 .idle := by
  have hstage : ∀ p, (Sys.stage₀ p : Stage ℤ (Msg B)) = .user ∨
      (Sys.stage₀ p : Stage ℤ (Msg B)) = .unborn := fun p => by
    rw [Sys.stage₀]
    split
    · exact Or.inl rfl
    · exact Or.inr rfl
  refine ⟨talking_boot mem registers, fun c tag r hc => ?_, fun r => ?_, fun p hp => ?_,
    fun k ha => ?_, fun p q m hp => ?_, fun pid hpid => ?_⟩
  · exact absurd hc (not_awaits (by simp [boot]) (by simp [boot]))
  · rcases hstage r.server with hs | hs <;> rw [hs] <;> simp
  · rcases hstage p with hs | hs <;> rw [hs] at hp <;> simp at hp
  · simp [boot] at ha
  · rcases hstage p with hs | hs <;> rw [hs] at hp <;> simp at hp
  · simp [boot] at hpid

end World

/-- **The next interrupt returns to a process.**  After a run in which nobody disturbs a server that
waits for a reply, `sys_proc` does not take the end of an older process for that of a command which
has failed, and nobody waits to send to a dead process, `proc_yield` finds a process at the next
interrupt, if that one keeps to these conditions too. -/
theorem interrupt_returns (env : Env B) (mem : ℤ → Syscall (Msg B)) (registers : Fin 29 → UInt32)
    (ls : List Move) (w : World B)
    (h : Runs.EveryStep (fun w l => w.step env .messages l)
      (fun w l w' => w.Undisturbed l ∧ w.Orderly l ∧ w'.sys.kernel.WaitsOnLive)
      (World.boot mem registers) ls)
    (hrun : (World.boot mem registers).run env .messages ls = some w)
    (id : Kernel.IntrId) (tty : Bool) (hcall : id = .soft → w.Invoked)
    (hu : w.Undisturbed (.intr id tty)) (hkept : w.sys.ReceiverKept (.intr id tty)) :
    ∃ w', w.step env .messages (.intr id tty) = some w' := by
  have hinv : Runs.EveryStep (fun w l => w.step env .messages l)
      (fun _ _ w' => ∃ st t, Sys.Sim World.copyMsg w'.sys st ∧
        Flowing env st w'.progs w'.sys.kernel.procNprocs t ∧ OnLive st)
      (World.boot mem registers) ls := by
    refine Runs.EveryStep.imp (I := fun w _ => ∃ st t, Sys.Sim World.copyMsg w.sys st ∧
      Flowing env st w.progs w.sys.kernel.procNprocs t) ?_ ls _ ?_ h
    · rintro w l - w' ⟨st, t, hsim, hf⟩ hs ⟨hu, hord, hw⟩
      obtain ⟨st', hsim', hstep⟩ := hu.progStep hsim hs
      obtain ⟨t', hf'⟩ := hf.step (fun _ => World.Trap.kind) (fun e _ he hT => hu.fair hsim he hT)
        hord.free hstep
      exact ⟨⟨st', t', hsim', hf', World.onLive_of_kernel hsim' hw⟩, st', t', hsim', hf'⟩
    · exact ⟨_, _, Sys.sim_boot mem registers, World.flowing_boot mem registers⟩
  have hboot : OnLive (Sys.stage₀ : ℤ → Stage ℤ (Msg B)) :=
    World.onLive_of_kernel (w := World.boot mem registers) (Sys.sim_boot mem registers)
      (Sys.boot_waitsOnLive mem registers)
  obtain ⟨st, t, hsim, hf, hlive⟩ := Runs.EveryStep.foldlM ls _ w
    ⟨_, _, Sys.sim_boot mem registers, World.flowing_boot mem registers, hboot⟩ hinv hrun
  cases hk : w.sys.kernel.kernelEntry id tty with
  | error e =>
      obtain ⟨st', ev, hs, hT, hlive', hnone⟩ :=
        World.stuck_cases hsim hlive hcall hkept hk
      obtain ⟨t', hf'⟩ := hf.step (T := w.Trap (.intr id tty)) (A := fun _ => False)
        (fun _ => World.Trap.kind) (fun e _ he hT => hu.fair hsim he hT) (fun hA => hA.elim)
        (.trap hs hT)
      obtain ⟨p, hp⟩ := hf'.exists_runnable hlive'
      exact absurd hp (hnone p)
  | ok k =>
      simp only [World.step, Sys.step, Sys.intr, hk]
      cases id with
      | timer => exact ⟨_, rfl⟩
      | soft =>
          have hinv := hcall rfl
          rw [World.Invoked] at hinv
          cases hph : w.sys.phase w.sys.curr with
          | sendCall | recvCall => exact ⟨_, rfl⟩
          | user | sendTrap | recvTrap =>
              rw [hph] at hinv
              exact hinv.elim

/-- The run until `sys_file` is about to wait for the next request.  `sys_proc` waits for the reply
of `sys_dir`, and the shell for that of `sys_proc`. -/
def waitingRun : List Move := smallBoot.moves smallEnv .messages disturb 46

theorem interrupt_returns_waitingRun :
    ∃ w w', smallBoot.run smallEnv .messages waitingRun = some w ∧
      w.sys.kernel.view GPID_PROCESS = .waitRecv ∧ w.sys.kernel.view GPID_SHELL = .waitRecv ∧
      w.sys.curr = GPID_FILE ∧ w.Invoked ∧
      w.step smallEnv .messages (.intr .soft false) = some w' := by
  have h : (smallBoot.run smallEnv .messages waitingRun).any (fun w =>
      (w.sys.kernel.view GPID_PROCESS = .waitRecv ∧ w.sys.kernel.view GPID_SHELL = .waitRecv ∧
        w.sys.curr = GPID_FILE ∧ w.Invoked) ∧
      w.Undisturbed (.intr .soft false) ∧ (w.sys.kernel.sc.type ≠ .send)) = true := by
    decide +kernel
  obtain ⟨w, hw, h⟩ := (Option.any_eq_true _ _).1 h
  obtain ⟨⟨h₁, h₂, h₃, h₄⟩, hu, hty⟩ := of_decide_eq_true h
  obtain ⟨w', hs⟩ := interrupt_returns smallEnv _ _ waitingRun w (by decide +kernel) hw .soft false
    (fun _ => h₄) hu fun q hq => absurd hq.2.2.1 hty
  exact ⟨w, w', hw, h₁, h₂, h₃, h₄, hs⟩

end Egos
