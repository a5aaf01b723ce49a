/-
**Calls by messages are as good as calls that are answered at once.**

In the system, `dir_lookup` and `file_read` send a request and receive the reply, and the server
`sys_dir` calls `file_read` in its turn.  The steps of a call are interleaved with those of all
other processes.  If everything that the two servers do is left out of the picture, and a process
inside of a call is taken to be in front of it, what remains is a system in which every call is
answered in one step, at the moment when its reply returns.  This holds for every run in which
nobody disturbs a server that waits for a reply.

So what is known about the system with calls that are answered at once, that `sys_proc` and the
shell stay in step, is true of the system that exchanges messages.

Main definitions:

* `Egos.Act.hidden`, `Egos.Act.whole` — what is left out, and calls as a whole;
* `Egos.Procs`, `Egos.Procs.atomic` — the processes, and **the picture of them**;
* `Egos.AtomicStep` — a step of the system in which calls are answered at once.

Main results:

* `Egos.ProgStep.atomic` — the picture of a step;
* `Egos.messages_refine_atomic` — **every step with messages is a step with calls that are answered
  at once, or leaves the picture alone**;
* `Egos.messages_in_step` — shell and `sys_proc` stay in step when calls are messages.
-/

import Egos.Shell

set_option autoImplicit false

namespace Egos

open Function (update update_eq_self update_of_ne update_self)
open Rendezvous (Stage Ev Step)

variable {B : Type}

/-! ### The picture -/

/-- The process is inside of a call, or serves the calls of others. -/
def Act.hidden (p : ℤ) : Act B → Bool
  | .call _ _ | .await _ _ | .reply _ _ => true
  | .serve => decide (p ≠ GPID_PROCESS)
  | _ => false

/-- A call as a whole.  The call that `sys_dir` makes belongs to the call that it serves. -/
def Act.whole : Act B → Act B
  | .reply _ _ => .serve
  | .call _ (.lookup _ _ _) | .await _ (.lookup _ _ _) => .serve
  | .await r k => .call r k
  | a => a

/-- The stage of a process whose messages are left out. -/
def outside : Stage ℤ (Msg B) → Stage ℤ (Msg B)
  | .unborn => .unborn
  | .dead => .dead
  | .loading => .loading
  | _ => .user

/-- The stage of a process that is about to do `a`. -/
def shown (p : ℤ) (x : Stage ℤ (Msg B)) (a : Act B) : Stage ℤ (Msg B) :=
  if a.hidden p then outside x else x

/-- The programs, where the calls of `sys_dir` are not counted. -/
def Progs.atomic (pr : Progs B) : Progs B :=
  { pr with
    act := fun p => (pr.act p).whole
    calls := fun p => if p = GPID_DIR then 0 else pr.calls p }

/-- The stages of all processes. -/
def atomicStage (st : ℤ → Stage ℤ (Msg B)) (pr : Progs B) : ℤ → Stage ℤ (Msg B) :=
  fun p => shown p (st p) (pr.act p)

/-- The processes: where they are in their calls, their programs, and how many were created. -/
structure Procs (B : Type) where
  stage : ℤ → Stage ℤ (Msg B)
  progs : Progs B
  count : ℕ

/-- **The picture of the processes** in which calls are answered at once. -/
def Procs.atomic (s : Procs B) : Procs B := ⟨atomicStage s.stage s.progs, s.progs.atomic, s.count⟩

/-- The events of a software interrupt. -/
def TrapKind : Ev ℤ (Msg B) → Prop
  | .fail _ | .block _ | .give _ _ _ | .wait _ | .take _ _ _ => True
  | _ => False

/-- **A step of the system in which calls are answered at once.** -/
def AtomicStep (env : Env B) (s s' : Procs B) : Prop :=
  ProgStep env .atomic TrapKind (fun _ => True) s.stage s.progs s.count s'.stage s'.progs s'.count

variable {env : Env B} {st st' : ℤ → Stage ℤ (Msg B)} {pr pr' : Progs B} {n n' : ℕ} {p q : ℤ}
  {x : Stage ℤ (Msg B)} {a : Act B} {m : Msg B}

theorem shown_of_hidden (h : a.hidden p = true) : shown p x a = outside x := if_pos h

theorem shown_of_not_hidden (h : a.hidden p = false) : shown p x a = x := by
  rw [shown, h]
  rfl

@[simp]
theorem shown_user (p : ℤ) (a : Act B) : shown p .user a = .user := by
  rw [shown]
  split <;> rfl

@[simp]
theorem shown_dead (p : ℤ) (a : Act B) : shown p .dead a = .dead := by
  rw [shown]
  split <;> rfl

/-- Nobody is created or killed in the picture only. -/
theorem shown_eq_unborn : shown p x a = .unborn ↔ x = .unborn := by
  rw [shown]
  split
  · cases x <;> simp [outside]
  · rfl

theorem shown_eq_dead : shown p x a = .dead ↔ x = .dead := by
  rw [shown]
  split
  · cases x <;> simp [outside]
  · rfl

theorem shown_eq_loading : shown p x a = .loading ↔ x = .loading := by
  rw [shown]
  split
  · cases x <;> simp [outside]
  · rfl

/-- A process that waits in the picture does wait. -/
theorem of_shown_waitRecv (h : shown p x a = .waitRecv) : x = .waitRecv := by
  rw [shown] at h
  split at h
  · cases x <;> simp [outside] at h
  · exact h

theorem of_shown_waitSend (h : shown p x a = .waitSend q m) : x = .waitSend q m := by
  rw [shown] at h
  split at h
  · cases x <;> simp [outside] at h
  · exact h

theorem Act.hidden_start (p : ℤ) : (Act.start p : Act B).hidden p = false := by
  rw [Act.start]
  split
  · rfl
  · split <;> rfl

theorem Act.whole_start (p : ℤ) : (Act.start p : Act B).whole = .start p := by
  rw [Act.start]
  split
  · rfl
  · split <;> rfl

theorem Act.whole_ne_await (a : Act B) (r : Request) (k : Kont B) : a.whole ≠ .await r k := by
  cases a with
  | call r' k' | await r' k' => cases k' <;> simp [Act.whole]
  | _ => simp [Act.whole]

/-- A change to one process. -/
theorem atomicStage_update (hact : ∀ q, q ≠ p → pr'.act q = pr.act q) :
    atomicStage (update st p x) pr' =
      update (atomicStage st pr) p (shown p x (pr'.act p)) := by
  funext q
  by_cases hq : q = p
  · subst hq
    rw [atomicStage, update_self, update_self]
  · rw [atomicStage, update_of_ne hq, update_of_ne hq, hact q hq, atomicStage]

/-- A change that the picture does not show. -/
theorem atomicStage_update_same (hact : ∀ q, q ≠ p → pr'.act q = pr.act q)
    (h : shown p x (pr'.act p) = shown p (st p) (pr.act p)) :
    atomicStage (update st p x) pr' = atomicStage st pr := by
  rw [atomicStage_update hact, h]
  exact update_eq_self p (atomicStage st pr)

/-- A change of the stage only. -/
theorem atomicStage_update_stage :
    atomicStage (update st p x) pr =
      update (atomicStage st pr) p (shown p x (pr.act p)) :=
  atomicStage_update fun _ _ => rfl

theorem Act.whole_update (f : ℤ → Act B) (p : ℤ) (a : Act B) :
    (fun q => (update f p a q).whole) =
      update (fun q => (f q).whole) p a.whole := by
  funext q
  by_cases hq : q = p
  · subst hq
    rw [update_self, update_self]
  · rw [update_of_ne hq, update_of_ne hq]

theorem Progs.atomic_setAct (pr : Progs B) (p : ℤ) (a : Act B) :
    (pr.setAct p a).atomic = pr.atomic.setAct p a.whole := by
  rw [Progs.atomic, Progs.setAct]
  simp only [Act.whole_update]
  rfl

/-- An activity that is shown is that of the process. -/
theorem Act.whole_of_not_hidden (h : a.hidden p = false) : a.whole = a := by
  cases a <;> first | rfl | simp [Act.hidden] at h

/-- The operations that are shown do not depend on how calls are made. -/
theorem Act.op_of_not_hidden {tag : ℤ × ℕ} (h : a.hidden p = false) :
    a.op .messages tag = a.op .atomic tag := by
  cases a <;> first | rfl | simp [Act.hidden] at h

/-- `sys_dir` makes no calls before its notification. -/
def DirFresh (pr : Progs B) (n : ℕ) : Prop :=
  n < 3 ∨ pr.act GPID_DIR = .notify → pr.calls GPID_DIR = 0

/-- What a process does that is shown. -/
theorem Progs.op_atomic (hfit : (pr.act p).Fits p) (hfresh : DirFresh pr n)
    (h : (pr.act p).hidden p = false) : pr.atomic.op p .atomic = pr.op p .messages := by
  have hact : pr.atomic.act p = pr.act p := Act.whole_of_not_hidden h
  rw [Progs.op, Progs.op, hact, Act.op_of_not_hidden h]
  by_cases hp : p = GPID_DIR
  · subst hp
    cases ha : pr.act GPID_DIR with
    | notify =>
        have htag : pr.atomic.tag GPID_DIR = pr.tag GPID_DIR := by
          rw [Progs.tag, Progs.tag, hfresh (Or.inr ha)]
          rfl
        rw [htag]
    | fatal f => rfl
    | call | await | reply | serve =>
        rw [ha] at h
        simp [Act.hidden, GPID_DIR, GPID_PROCESS] at h
    | _ =>
        rw [ha] at hfit
        exact absurd hfit (by simp [Act.Fits, GPID_DIR, GPID_PROCESS, GPID_SHELL, GPID_USER_START])
  · have htag : pr.atomic.tag p = pr.tag p := by
      rw [Progs.tag, Progs.tag]
      exact congrArg (Prod.mk p) (if_neg hp)
    rw [htag]

theorem Act.whole_loadNext (env : Env B) (cmd : Cmd) (pid ino : ℤ) (blocks : List B) :
    (Act.loadNext env cmd pid ino blocks).whole = .loadNext env cmd pid ino blocks := by
  rw [Act.loadNext]
  split <;> rfl

/-- `proc_alloc` returns to `sys_proc`. -/
theorem Progs.atomic_allocated (env : Env B) (hop : pr.op GPID_PROCESS .messages = .alloc)
    (pid : ℤ) :
    (pr.allocated env GPID_PROCESS pid).atomic = pr.atomic.allocated env GPID_PROCESS pid ∧
      ∃ b, (pr.allocated env GPID_PROCESS pid).act =
        update (update pr.act pid (.start pid)) GPID_PROCESS b ∧
        b.whole = b := by
  rw [Progs.op] at hop
  cases ha : pr.act GPID_PROCESS with
  | sysAlloc k =>
      have hw : pr.atomic.act GPID_PROCESS = .sysAlloc k := congrArg Act.whole ha
      simp only [Progs.allocated, ha, hw]
      refine ⟨?_, _, rfl, rfl⟩
      simp only [Progs.atomic, Act.whole_update, Act.whole_start]
      rfl
  | appAlloc cmd ino =>
      have hw : pr.atomic.act GPID_PROCESS = .appAlloc cmd ino := congrArg Act.whole ha
      simp only [Progs.allocated, ha, hw]
      refine ⟨?_, _, rfl, Act.whole_loadNext _ _ _ _ _⟩
      simp only [Progs.atomic, Act.whole_update, Act.whole_start, Act.whole_loadNext]
  | _ =>
      rw [ha] at hop
      simp [Act.op] at hop

/-- `proc_set_ready` returns to `sys_proc`. -/
theorem Progs.atomic_readied {pid : ℤ} (hop : pr.op GPID_PROCESS .messages = .ready pid) :
    (pr.readied GPID_PROCESS).atomic = pr.atomic.readied GPID_PROCESS ∧
      ∃ b, (pr.readied GPID_PROCESS).act = update pr.act GPID_PROCESS b ∧
        b.whole = b ∧ b ≠ .notify := by
  rw [Progs.op] at hop
  cases ha : pr.act GPID_PROCESS with
  | sysReady k pid' =>
      have hw : pr.atomic.act GPID_PROCESS = .sysReady k pid' := congrArg Act.whole ha
      simp only [Progs.readied, ha, hw]
      refine ⟨?_, _, rfl, ?_⟩
      · rw [Progs.atomic_setAct]
        split <;> rfl
      · split <;> exact ⟨rfl, by simp⟩
  | appReady cmd pid' =>
      have hw : pr.atomic.act GPID_PROCESS = .appReady cmd pid' := congrArg Act.whole ha
      simp only [Progs.readied, ha, hw]
      exact ⟨Progs.atomic_setAct _ _ _, _, rfl, rfl, by simp⟩
  | _ =>
      rw [ha] at hop
      simp [Act.op] at hop

/-- `proc_free` returns to `sys_proc`. -/
theorem Progs.atomic_freed (pr : Progs B) (pid : ℤ) :
    (pr.freed GPID_PROCESS pid).atomic = pr.atomic.freed GPID_PROCESS pid := by
  have hwhole : ∀ (c : Prop) [Decidable c],
      (if c then Act.exited else .serve : Act B).whole = if c then .exited else .serve := by
    intro c _
    split <;> rfl
  simp only [Progs.freed, Progs.atomic, Progs.setAct, Act.whole_update, hwhole]
  rfl

/-! ### Messages -/

/-- Requests go to the servers, and to nobody else. -/
theorem server_recv_hidden (hfit : a.Fits q) (hq : q = 2 ∨ q = 3) {tag : ℤ × ℕ}
    (hop : a.op .messages tag = .recv) : a.hidden q = true := by
  rcases Serving.recv_cases hfit hop with rfl | ⟨r, k, rfl⟩ | ⟨k, -, h1⟩ | ⟨-, h4⟩
  · rw [Act.hidden]
    rcases hq with rfl | rfl <;> rfl
  · rfl
  · rcases hq with rfl | rfl <;> exact absurd h1 (by decide)
  · rcases hq with rfl | rfl <;> exact absurd h4 (by decide)

/-- `sys_proc` is inside of a call when it takes a message only if it waits for the reply. -/
theorem process_recv_shown (hfit : a.Fits GPID_PROCESS) {tag : ℤ × ℕ}
    (hop : a.op .messages tag = .recv) (hne : ∀ r k, a ≠ .await r k) :
    a.hidden GPID_PROCESS = false := by
  rcases Serving.recv_cases hfit hop with rfl | ⟨r, k, rfl⟩ | ⟨k, rfl, -⟩ | ⟨-, h4⟩
  · rfl
  · exact absurd rfl (hne r k)
  · rfl
  · exact absurd h4 (by decide)

/-- The shell makes no calls. -/
theorem shell_shown (hfit : a.Fits GPID_SHELL) : a.hidden GPID_SHELL = false := by
  cases a with
  | call r k | await r k => exact absurd rfl (Serving.call_fits hfit).2.1
  | reply | serve =>
      exact absurd hfit (by simp [Act.Fits, GPID_DIR, GPID_FILE, GPID_PROCESS, GPID_SHELL])
  | _ => rfl

/-- **A message is left out of the picture on both sides, or on none.** -/
theorem hidden_iff (h : Serving env .messages st pr n)
    (hp : st p = .sendCall q m ∨ st p = .waitSend q m)
    (hq : st q = .waitRecv ∨ st q = .recvCall)
    (hfair : q = GPID_PROCESS ∨ q = GPID_DIR → ∀ r k, pr.act q = .await r k → p = r.server) :
    (pr.act p).hidden p = (pr.act q).hidden q := by
  obtain ⟨hpne, hplive, hsent, hop⟩ := h.of_sending hp
  obtain ⟨hqne, hqlive, hoq⟩ := h.of_receiving hq
  have hfp := (h.loc p hpne).fits
  have hfq := (h.loc q hqne).fits
  -- a message for `sys_proc` that is no reply
  have hproc : q = GPID_PROCESS → (∀ r : Request, p ≠ r.server) →
      (pr.act p).hidden p = false → (pr.act p).hidden p = (pr.act q).hidden q := by
    rintro rfl hne hs
    rw [hs, process_recv_shown hfq hoq fun r k ha => hne r (hfair (Or.inl rfl) r k ha)]
  have hserver : ∀ r : Request, r.server = 2 ∨ r.server = 3 := Serving.server_eq
  cases ha : pr.act p with
  | call r k =>
      rw [ha] at hop
      obtain ⟨-, rfl, -⟩ := Act.op_call_send hop
      exact (server_recv_hidden hfq (hserver r) hoq).symm
  | reply c m' =>
      rw [ha] at hop
      obtain ⟨rfl, rfl⟩ := Op.send.inj hop
      rcases h.debt p c m'.tag hplive hpne (by rw [ha]; exact .reply hsent) with
        hd | ⟨r, -, ⟨-, ⟨k, hk, hs⟩ | ⟨k, hk, -⟩⟩, -⟩
      · exact absurd hd hqlive
      · rcases hq with hq | hq <;> rw [hq] at hs <;> exact absurd trivial hs
      · rw [hk]
        rfl
  | notify =>
      rw [ha] at hop
      obtain ⟨rfl, -⟩ := Op.send.inj hop
      have hexp := h.notify p ⟨ha, hsent, hplive, hpne⟩
      refine (process_recv_shown hfq hoq fun r k hk => ?_).symm
      rw [hk] at hexp
      simp [expecting] at hexp
  | spawned | exited =>
      rw [ha] at hop
      obtain ⟨rfl, -⟩ := Op.send.inj hop
      exact (shell_shown hfq).symm
  | exit =>
      rw [ha] at hop hproc hfp
      obtain ⟨rfl, -⟩ := Op.send.inj hop
      have hp5 : p ≥ 5 := hfp
      exact hproc rfl (fun r hr => by have := hserver r; omega) rfl
  | command | killall =>
      rw [ha] at hop hproc hfp
      obtain ⟨rfl, -⟩ := Op.send.inj hop
      have hp4 : p = 4 := hfp
      exact hproc rfl (fun r hr => by have := hserver r; omega) rfl
  | _ =>
      rw [ha] at hop
      simp [Act.op] at hop

namespace ProgStep

variable {T : Ev ℤ (Msg B) → Prop} {A : ℤ → Prop}

/-- The processes that may act in the picture: a call is answered when its reply returns. -/
def Acts (A : ℤ → Prop) (pr : Progs B) (p : ℤ) : Prop := A p ∨ pr.atomic.op p .atomic = .answer

/-- A change that the picture does not show. -/
theorem quiet_of (hst : atomicStage st' pr' = atomicStage st pr) (hpr : pr'.atomic = pr.atomic) :
    ProgStep env .atomic T A (atomicStage st pr) pr.atomic n (atomicStage st' pr') pr'.atomic
      n := by
  rw [hst, hpr]
  exact .quiet

/-- Two messages of one call look the same from outside. -/
theorem atomicStage_hidden (hh : (pr.act p).hidden p = true)
    (hx : outside x = outside (st p)) :
    atomicStage (update st p x) pr = atomicStage st pr := by
  refine atomicStage_update_same (fun _ _ => rfl) ?_
  rw [shown_of_hidden hh, shown_of_hidden hh, hx]

theorem atomicStage_shown (hh : (pr.act p).hidden p = false) :
    atomicStage (update st p x) pr = update (atomicStage st pr) p x := by
  rw [atomicStage_update_stage, shown_of_not_hidden hh]

theorem atomicStage_apply_shown (hh : (pr.act p).hidden p = false) : atomicStage st pr p = st p :=
  shown_of_not_hidden hh

/-- A message changes hands. -/
theorem atomic_deliver (h : Serving env .messages st pr n)
    (hp : st p = .sendCall q m ∨ st p = .waitSend q m)
    (hq : st q = .waitRecv ∨ st q = .recvCall)
    (hfair : q = GPID_PROCESS ∨ q = GPID_DIR → ∀ r k, pr.act q = .await r k → p = r.server)
    (htrap : ∀ st₁ st₂ : ℤ → Stage ℤ (Msg B), st₁ p = st p → st₁ q = st q →
      st₂ = update (update st₁ p (.sent q m true)) q (.got p m) →
      ProgStep env .atomic T A st₁ pr.atomic n st₂ pr.atomic n) :
    ProgStep env .atomic T A (atomicStage st pr) pr.atomic n
      (atomicStage (update (update st p (.sent q m true)) q (.got p m)) pr)
      pr.atomic n := by
  have hiff := hidden_iff h hp hq hfair
  have hpq : q ≠ p := by
    rintro rfl
    rcases hp with hp | hp <;> rcases hq with hq | hq <;> rw [hp] at hq <;> simp at hq
  cases hh : (pr.act p).hidden p with
  | true =>
      have hh' : (pr.act q).hidden q = true := hiff ▸ hh
      refine quiet_of ?_ rfl
      rw [atomicStage_hidden hh', atomicStage_hidden hh]
      · rcases hp with hp | hp <;> rw [hp] <;> rfl
      · rw [update_of_ne hpq]
        rcases hq with hq | hq <;> rw [hq] <;> rfl
  | false =>
      have hh' : (pr.act q).hidden q = false := hiff ▸ hh
      refine htrap _ _ (atomicStage_apply_shown hh) (atomicStage_apply_shown hh') ?_
      rw [atomicStage_shown hh', atomicStage_shown hh]

/-- A trap. -/
theorem atomic_trap {e : Ev ℤ (Msg B)} (h : Serving env .messages st pr n)
    (hs : Step st e st') (he : T e) (hfair : Serving.Fair pr e) :
    ProgStep env .atomic T A (atomicStage st pr) pr.atomic n (atomicStage st' pr) pr.atomic n := by
  cases hs with
  | @fail p q m hp hq =>
      cases hh : (pr.act p).hidden p with
      | true => exact quiet_of (atomicStage_hidden hh (by rw [hp]; rfl)) rfl
      | false =>
          rw [atomicStage_shown hh]
          refine .trap (.fail ((atomicStage_apply_shown hh).trans hp) ?_) he
          exact hq.imp shown_eq_dead.2 shown_eq_unborn.2
  | @block p q m hp hq =>
      cases hh : (pr.act p).hidden p with
      | true => exact quiet_of (atomicStage_hidden hh (by rw [hp]; rfl)) rfl
      | false =>
          rw [atomicStage_shown hh]
          exact .trap (.block ((atomicStage_apply_shown hh).trans hp)
            fun hw => hq (of_shown_waitRecv hw)) he
  | @wait q hq hs =>
      cases hh : (pr.act q).hidden q with
      | true => exact quiet_of (atomicStage_hidden hh (by rw [hq]; rfl)) rfl
      | false =>
          rw [atomicStage_shown hh]
          exact .trap (.wait ((atomicStage_apply_shown hh).trans hq)
            fun s a hw => hs s a (of_shown_waitSend hw)) he
  | give hp hq =>
      refine atomic_deliver h (Or.inl hp) (Or.inl hq) hfair ?_
      rintro st₁ _ h₁ h₂ rfl
      exact .trap (.give (h₁.trans hp) (h₂.trans hq)) he
  | take hq hp =>
      refine atomic_deliver h (Or.inr hp) (Or.inr hq) hfair ?_
      rintro st₁ _ h₁ h₂ rfl
      exact .trap (.take (h₂.trans hq) (h₁.trans hp)) he
  | sysSend | sysRecv | retSend | retRecv | spawn | ready | kill => exact hfair.elim

theorem atomic_send (h : Serving env .messages st pr n) (hfresh : DirFresh pr n) (hA : A p)
    (hst : st p = .user) (hop : pr.op p .messages = .send q m) :
    ProgStep env .atomic T A (atomicStage st pr) pr.atomic n
      (atomicStage (update st p (.sendCall q m)) (pr.note p)) (pr.note p).atomic n := by
  have hact : (pr.note p).act = pr.act := by
    rw [Progs.note]
    split <;> rfl
  have hstage : ∀ st, atomicStage st (pr.note p) = atomicStage st pr := fun st =>
    funext fun q => congrArg (shown q (st q)) (congrFun hact q)
  have hfit := (h.loc p (by rw [hst]; simp)).fits
  rw [hstage]
  cases hh : (pr.act p).hidden p with
  | true =>
      rw [atomicStage_hidden hh (by rw [hst]; rfl)]
      -- a request or a reply
      have hnote : pr.note p = pr := by
        rw [Progs.note]
        cases ha : pr.act p with
        | spawned | exited =>
            rw [ha] at hh
            simp [Act.hidden] at hh
        | _ => rfl
      rw [hnote]
      exact .quiet
  | false =>
      rw [atomicStage_shown hh]
      have hact' : pr.atomic.act p = pr.act p := Act.whole_of_not_hidden hh
      have hnote : (pr.note p).atomic = pr.atomic.note p := by
        rw [Progs.note, Progs.note, hact']
        split <;> rfl
      rw [hnote]
      exact .send hA ((atomicStage_apply_shown hh).trans hst)
        ((Progs.op_atomic hfit hfresh hh).trans hop)

theorem atomic_recv (h : Serving env .messages st pr n) (hfresh : DirFresh pr n) (hA : A p)
    (hst : st p = .user) (hop : pr.op p .messages = .recv) :
    ProgStep env .atomic T A (atomicStage st pr) pr.atomic n
      (atomicStage (update st p .recvCall) pr) pr.atomic n := by
  have hfit := (h.loc p (by rw [hst]; simp)).fits
  cases hh : (pr.act p).hidden p with
  | true => exact quiet_of (atomicStage_hidden hh (by rw [hst]; rfl)) rfl
  | false =>
      rw [atomicStage_shown hh]
      exact .recv hA ((atomicStage_apply_shown hh).trans hst)
        ((Progs.op_atomic hfit hfresh hh).trans hop)

/-- The operations of `sys_proc` on processes are shown. -/
theorem process_shown (h : pr.op p .messages = .alloc ∨ (∃ pid, pr.op p .messages = .ready pid) ∨
    ∃ pid, pr.op p .messages = .free pid) : (pr.act p).hidden p = false := by
  rw [Progs.op] at h
  cases ha : pr.act p with
  | call | await | reply | serve =>
      rw [ha] at h
      simp [Act.op] at h
  | _ => rfl

theorem atomic_alloc (h : Serving env .messages st pr n) (hfresh : DirFresh pr n)
    (hA : A GPID_PROCESS) (hst : st GPID_PROCESS = .user)
    (hop : pr.op GPID_PROCESS .messages = .alloc) (hnew : st ((n : ℤ) + 1) = .unborn) :
    ProgStep env .atomic T A (atomicStage st pr) pr.atomic n
      (atomicStage (update st ((n : ℤ) + 1) .loading)
        (pr.allocated env GPID_PROCESS ((n : ℤ) + 1)))
      (pr.allocated env GPID_PROCESS ((n : ℤ) + 1)).atomic (n + 1) := by
  have hne : GPID_PROCESS ≠ (n : ℤ) + 1 := by
    intro he
    rw [← he, hst] at hnew
    simp at hnew
  have hfit := (h.loc GPID_PROCESS (by rw [hst]; simp)).fits
  have hh := process_shown (Or.inl hop)
  obtain ⟨hall, b, hact, -⟩ := Progs.atomic_allocated env hop ((n : ℤ) + 1)
  -- the activities of the new process and of `sys_proc` change
  have hstage : atomicStage (update st ((n : ℤ) + 1) .loading)
      (pr.allocated env GPID_PROCESS ((n : ℤ) + 1)) =
        update (atomicStage st pr) ((n : ℤ) + 1) .loading := by
    funext q
    rw [atomicStage, hact]
    by_cases hq : q = (n : ℤ) + 1
    · subst hq
      rw [update_self, update_of_ne hne.symm, update_self,
        update_self, shown_of_not_hidden (Act.hidden_start _)]
    · rw [update_of_ne hq, update_of_ne hq]
      by_cases hq1 : q = GPID_PROCESS
      · subst hq1
        rw [atomicStage, hst, shown_user, shown_user]
      · rw [update_of_ne hq1, update_of_ne hq, atomicStage]
  rw [hall, hstage]
  exact .alloc hA ((atomicStage_apply_shown hh).trans hst)
    ((Progs.op_atomic hfit hfresh hh).trans hop) (shown_eq_unborn.2 hnew)

theorem atomic_ready {pid : ℤ} (h : Serving env .messages st pr n) (hfresh : DirFresh pr n)
    (hA : A GPID_PROCESS) (hst : st GPID_PROCESS = .user)
    (hop : pr.op GPID_PROCESS .messages = .ready pid) (hpid : st pid = .loading) :
    ProgStep env .atomic T A (atomicStage st pr) pr.atomic n
      (atomicStage (update st pid .user) (pr.readied GPID_PROCESS))
      (pr.readied GPID_PROCESS).atomic n := by
  have hfit := (h.loc GPID_PROCESS (by rw [hst]; simp)).fits
  have hh := process_shown (Or.inr (Or.inl ⟨pid, hop⟩))
  obtain ⟨hrd, b, hact, -⟩ := Progs.atomic_readied hop
  have hstage : atomicStage (update st pid .user) (pr.readied GPID_PROCESS) =
      update (atomicStage st pr) pid .user := by
    funext q
    rw [atomicStage, hact]
    by_cases hq : q = pid
    · subst hq
      rw [update_self, update_self, shown_user]
    · rw [update_of_ne hq, update_of_ne hq]
      by_cases hq1 : q = GPID_PROCESS
      · subst hq1
        rw [atomicStage, hst, shown_user, shown_user]
      · rw [update_of_ne hq1, atomicStage]
  rw [hrd, hstage]
  exact .ready hA ((atomicStage_apply_shown hh).trans hst)
    ((Progs.op_atomic hfit hfresh hh).trans hop) (shown_eq_loading.2 hpid)

theorem atomic_free {pid : ℤ} (h : Serving env .messages st pr n) (hfresh : DirFresh pr n)
    (hA : A GPID_PROCESS) (hst : st GPID_PROCESS = .user)
    (hop : pr.op GPID_PROCESS .messages = .free pid) (hpid : pid ≠ GPID_PROCESS) :
    ProgStep env .atomic T A (atomicStage st pr) pr.atomic n
      (atomicStage (fun p => if Sys.goneBy st pid p then .dead else st p)
        (pr.freed GPID_PROCESS pid))
      (pr.freed GPID_PROCESS pid).atomic n := by
  have hfit := (h.loc GPID_PROCESS (by rw [hst]; simp)).fits
  have hh := process_shown (Or.inr (Or.inr ⟨pid, hop⟩))
  have hgone : ∀ q, Sys.goneBy (atomicStage st pr) pid q = Sys.goneBy st pid q := by
    intro q
    rw [Sys.goneBy, Sys.goneBy]
    congr 1
    cases hx : st q with
    | unborn => rw [atomicStage, shown_eq_unborn.2 hx]
    | _ =>
        have hne : atomicStage st pr q ≠ .unborn := fun he => by
          rw [atomicStage, shown_eq_unborn, hx] at he
          simp at he
        split
        · exact absurd ‹_› hne
        · rfl
  have hstage : atomicStage (fun p => if Sys.goneBy st pid p then .dead else st p)
      (pr.freed GPID_PROCESS pid) =
        fun p => if Sys.goneBy (atomicStage st pr) pid p then .dead else atomicStage st pr p := by
    funext q
    rw [hgone, atomicStage]
    by_cases hg : Sys.goneBy st pid q = true
    · rw [if_pos hg, if_pos hg, shown_dead]
    · rw [if_neg hg, if_neg hg]
      by_cases hq1 : q = GPID_PROCESS
      · subst hq1
        rw [atomicStage, hst, shown_user, shown_user]
      · rw [atomicStage]
        exact congrArg (shown q (st q)) (update_of_ne hq1 _ _)
  rw [Progs.atomic_freed, hstage]
  exact .free hA ((atomicStage_apply_shown hh).trans hst)
    ((Progs.op_atomic hfit hfresh hh).trans hop) hpid

/-- A process leaves a call of the kernel, and goes on with its program. -/
theorem atomicStage_user (hact : ∀ q, q ≠ p → pr'.act q = pr.act q) :
    atomicStage (update st p .user) pr' = update (atomicStage st pr) p .user := by
  rw [atomicStage_update hact, shown_user]

/-- A process goes on inside of a call. -/
theorem atomicStage_inside (hact : ∀ q, q ≠ p → pr'.act q = pr.act q)
    (hh : (pr.act p).hidden p = true) (hx : outside (st p) = .user) :
    atomicStage (update st p .user) pr' = atomicStage st pr := by
  refine atomicStage_update_same hact ?_
  rw [shown_user, shown_of_hidden hh, hx]

theorem atomic_retSend {ok : Bool} (h : Serving env .messages st pr n) (hst : st p = .sent q m ok) :
    ProgStep env .atomic T A (atomicStage st pr) pr.atomic n
      (atomicStage (update st p .user) (pr.setAct p (pr.act p).afterSend))
      (pr.setAct p (pr.act p).afterSend).atomic n := by
  have hne : st p ≠ .unborn := by rw [hst]; simp
  have hfit := (h.loc p hne).fits
  have hop := (h.loc p hne).stage
  rw [hst] at hop
  have hop' : (pr.act p).op .messages (pr.tag p) = .send q m := hop
  have hact : ∀ q, q ≠ p → (pr.setAct p (pr.act p).afterSend).act q = pr.act q :=
    fun q hq => pr.setAct_of_ne p hq _
  have hkeep : ∀ a : Act B, a = pr.atomic.act p → pr.atomic.setAct p a = pr.atomic := by
    rintro _ rfl
    simp only [Progs.setAct, update_eq_self]
  rw [Progs.atomic_setAct]
  cases hh : (pr.act p).hidden p with
  | true =>
      rw [atomicStage_inside hact hh (by rw [hst]; rfl), hkeep]
      · exact .quiet
      · change _ = (pr.act p).whole
        cases ha : pr.act p with
        | call r k => cases k <;> rfl
        | reply => rfl
        | await | serve =>
            rw [ha] at hop'
            simp [Act.op] at hop'
        | _ =>
            rw [ha] at hh
            simp [Act.hidden] at hh
  | false =>
      have hact' : pr.atomic.act p = pr.act p := Act.whole_of_not_hidden hh
      have hafter : (pr.act p).afterSend.whole = (pr.atomic.act p).afterSend := by
        rw [hact']
        cases ha : pr.act p <;> first | rfl | (rw [ha] at hh; simp [Act.hidden] at hh)
      rw [atomicStage_user hact, hafter]
      exact .retSend ((atomicStage_apply_shown hh).trans hst)

/-- The reply to a call returns: **this is the moment at which the call is answered**. -/
theorem atomic_retAwait {r : Request} {k : Kont B} (h : Serving env .messages st pr n)
    (hst : st p = .got q m) (ha : pr.act p = .await r k) :
    ProgStep env .atomic T (Acts A pr) (atomicStage st pr) pr.atomic n
      (atomicStage (update st p .user) (pr.received env p q m))
      (pr.received env p q m).atomic n := by
  have hne : st p ≠ .unborn := by rw [hst]; simp
  have hfit : k.Fits p r := by
    have hf := (h.loc p hne).fits
    rwa [ha] at hf
  obtain ⟨rfl, rfl⟩ := (h.loc p hne).got q m r k hst ha
  have hrec : pr.received env p r.server ⟨env.answer r, pr.tag p⟩ =
      pr.completed p (Act.resume env k (env.answer r)) := by
    simp [Progs.received, ha, Act.afterRecv]
  rw [hrec]
  have hact : ∀ q, q ≠ p →
      (pr.completed p (Act.resume env k (env.answer r))).act q = pr.act q :=
    fun q hq => pr.setAct_of_ne p hq _
  have hh : (pr.act p).hidden p = true := by rw [ha]; rfl
  rw [atomicStage_inside hact hh (by rw [hst]; rfl)]
  by_cases hk : ∃ c t name, k = .lookup c t name
  · -- the call of `sys_dir` belongs to the call that it serves
    obtain ⟨c, t, name, rfl⟩ := hk
    obtain ⟨rfl, ino, rfl⟩ := hfit
    have hsame : (pr.completed GPID_DIR
        (Act.resume env (.lookup c t name) (env.answer (.fileRead ino 0)))).atomic =
        pr.atomic := by
      have hact3 : update pr.atomic.act GPID_DIR .serve = pr.atomic.act := by
        rw [show Act.serve = pr.atomic.act GPID_DIR from (congrArg Act.whole ha).symm]
        exact update_eq_self _ _
      simp only [Progs.completed, Progs.setAct, Progs.atomic, Act.whole_update]
      congr 1
      funext q
      by_cases hq : q = GPID_DIR
      · rw [if_pos hq, if_pos hq]
      · rw [if_neg hq, if_neg hq, update_of_ne hq]
    rw [hsame]
    exact .quiet
  · have hp3 : p ≠ GPID_DIR := by
      rintro rfl
      cases k with
      | lookup c t name => exact hk ⟨c, t, name, rfl⟩
      | user => exact absurd (show (3 : ℤ) ≥ 5 from hfit) (by decide)
      | bin | app | load => exact absurd hfit.1 (by decide)
    have hact' : pr.atomic.act p = .call r k := by
      change (pr.act p).whole = _
      rw [ha]
      cases k with
      | lookup c t name => exact absurd ⟨c, t, name, rfl⟩ hk
      | _ => rfl
    have hwhole : (Act.resume env k (env.answer r)).whole = Act.resume env k (env.answer r) := by
      cases k with
      | lookup c t name => exact absurd ⟨c, t, name, rfl⟩ hk
      | user => rfl
      | bin cmd =>
          obtain ⟨-, ino, name, rfl⟩ := hfit
          rfl
      | app cmd =>
          obtain ⟨-, ino, name, rfl⟩ := hfit
          simp only [Act.resume, Env.answer]
          split_ifs <;> rfl
      | load cmd pid ino blocks =>
          obtain ⟨-, ino', offset, rfl⟩ := hfit
          exact Act.whole_loadNext _ _ _ _ _
    have hans : (pr.completed p (Act.resume env k (env.answer r))).atomic =
        pr.atomic.answered env p := by
      simp only [Progs.answered, hact']
      simp only [Progs.completed, Progs.setAct, Progs.atomic, Act.whole_update, hwhole]
      congr 1
      funext q
      by_cases hq : q = GPID_DIR
      · rw [if_pos hq, update_of_ne (hq ▸ hp3.symm), if_pos hq]
      · rw [if_neg hq]
        by_cases hqp : q = p
        · subst hqp
          rw [update_self, update_self, if_neg hq]
        · rw [update_of_ne hqp, update_of_ne hqp, if_neg hq]
    rw [hans]
    have hop : pr.atomic.op p .atomic = .answer := by rw [Progs.op, hact']; rfl
    refine .answer (Or.inr hop) ?_ hop
    rw [atomicStage, shown_of_hidden hh, hst]
    rfl

/-- A message returns that is shown. -/
theorem atomic_retShown (hst : st p = .got q m) (hh : (pr.act p).hidden p = false)
    (hact : ∀ q', q' ≠ p → (pr.received env p q m).act q' = pr.act q')
    (hrec : (pr.received env p q m).atomic = pr.atomic.received env p q m) :
    ProgStep env .atomic T A (atomicStage st pr) pr.atomic n
      (atomicStage (update st p .user) (pr.received env p q m))
      (pr.received env p q m).atomic n := by
  rw [atomicStage_user hact, hrec]
  exact .retRecv ((atomicStage_apply_shown hh).trans hst)

/-- A request returns to a server. -/
theorem atomic_retServe (h : Serving env .messages st pr n) (hst : st p = .got q m)
    (ha : pr.act p = .serve) :
    ProgStep env .atomic T A (atomicStage st pr) pr.atomic n
      (atomicStage (update st p .user) (pr.received env p q m))
      (pr.received env p q m).atomic n := by
  have hne : st p ≠ .unborn := by rw [hst]; simp
  have hfit := (h.loc p hne).fits
  have hproper := (h.loc p hne).proper q m hst ha
  have hrec : pr.received env p q m =
      { pr.setAct p (Act.handle env p q m) with
        events := pr.events ++ if p = GPID_PROCESS then Progs.requests m.body else [] } := by
    simp only [Progs.received, ha]
    rfl
  have hact : ∀ q', q' ≠ p → (pr.received env p q m).act q' = pr.act q' := fun q' hq => by
    rw [hrec]
    exact pr.setAct_of_ne p hq _
  have hatom : (pr.received env p q m).atomic =
      { pr.atomic.setAct p (Act.handle env p q m).whole with
        events := pr.events ++ if p = GPID_PROCESS then Progs.requests m.body else [] } := by
    rw [hrec]
    simp only [Progs.atomic, Progs.setAct, Act.whole_update]
  have hserve : pr.atomic.act p = .serve := congrArg Act.whole ha
  rw [ha] at hfit
  by_cases h1 : p = GPID_PROCESS
  · subst h1
    refine atomic_retShown hst (by rw [ha]; rfl) hact ?_
    rw [hatom]
    simp only [Progs.received, hserve]
    have hwhole : (Act.handle env GPID_PROCESS q m).whole = Act.handle env GPID_PROCESS q m := by
      rw [Act.handle, if_pos rfl]
      split <;> rfl
    rw [hwhole]
    rfl
  · -- `sys_file` and `sys_dir` go on to serve the call
    have hh : (pr.act p).hidden p = true := by
      rw [ha]
      exact decide_eq_true h1
    have hwhole : (Act.handle env p q m).whole = .serve := by
      rw [Act.handle, if_neg h1]
      cases hm : m.body with
      | request r =>
          rw [hm] at hproper
          cases r with
          | dirLookup ino name =>
              obtain rfl : p = GPID_DIR := hproper
              rfl
          | fileRead ino offset =>
              obtain rfl : p = GPID_FILE := hproper
              rfl
      | spawn | exit | killall =>
          rw [hm] at hproper
          exact absurd hproper h1
      | finish | procReply | fileReply | dirReply =>
          rw [hm] at hproper
          exact hproper.elim
    refine quiet_of (atomicStage_inside hact hh (by rw [hst]; rfl)) ?_
    rw [hatom, hwhole, if_neg h1, List.append_nil, ← hserve]
    simp only [Progs.setAct, update_eq_self]
    rfl

theorem atomic_retRecv (h : Serving env .messages st pr n) (hst : st p = .got q m) :
    ProgStep env .atomic T (Acts A pr) (atomicStage st pr) pr.atomic n
      (atomicStage (update st p .user) (pr.received env p q m))
      (pr.received env p q m).atomic n := by
  have hne : st p ≠ .unborn := by rw [hst]; simp
  have hfit := (h.loc p hne).fits
  have hop := (h.loc p hne).stage
  rw [hst] at hop
  -- what does not concern calls
  have hplain : (pr.act p).hidden p = false →
      pr.received env p q m = pr.setAct p ((pr.act p).afterRecv env p q m) →
      ((pr.act p).afterRecv env p q m).whole = (pr.act p).afterRecv env p q m →
      pr.atomic.received env p q m = pr.atomic.setAct p ((pr.act p).afterRecv env p q m) →
      ProgStep env .atomic T (Acts A pr) (atomicStage st pr) pr.atomic n
        (atomicStage (update st p .user) (pr.received env p q m))
        (pr.received env p q m).atomic n := by
    intro hh hrec hwhole hrec'
    refine atomic_retShown hst hh (fun q' hq => ?_) ?_
    · rw [hrec, pr.setAct_of_ne p hq]
    · rw [hrec, Progs.atomic_setAct, hwhole, hrec']
  rcases Serving.recv_cases hfit hop with ha | ⟨r, k, ha⟩ | ⟨k, ha, -⟩ | ⟨⟨cmd, ha⟩ | ha, -⟩
  · exact atomic_retServe h hst ha
  · exact atomic_retAwait h hst ha
  all_goals
    have hact' : pr.atomic.act p = pr.act p := Act.whole_of_not_hidden (p := p) (by rw [ha]; rfl)
    refine hplain (by rw [ha]; rfl) ?_ ?_ ?_
    · simp only [Progs.received, ha]
    · rw [ha]
      simp only [Act.afterRecv]
      first | rfl | (split <;> first | rfl | (split <;> rfl))
    · simp only [Progs.received, hact', ha]

theorem atomic_choose {c : Choice} (hst : st p = .user) (hc : (pr.act p).choose c = some a) :
    ProgStep env .atomic T A (atomicStage st pr) pr.atomic n
      (atomicStage st (pr.setAct p a)) (pr.setAct p a).atomic n := by
  have hupd : update st p .user = st := by rw [← hst, update_eq_self]
  have hstage : atomicStage st (pr.setAct p a) = atomicStage st pr := by
    conv_lhs => rw [← hupd]
    refine atomicStage_update_same (fun q hq => pr.setAct_of_ne p hq _) ?_
    rw [shown_user, hst, shown_user]
  have hshown : (pr.act p).hidden p = false ∧ a.whole = a := by
    rcases Act.choose_cases hc with ha | ha <;> rw [ha] at hc ⊢ <;>
      cases c <;> simp [Act.choose] at hc <;> subst hc <;> exact ⟨rfl, rfl⟩
  rw [hstage, Progs.atomic_setAct, hshown.2]
  exact .choose ((atomicStage_apply_shown hshown.1).trans hst)
    ((congrArg (fun b => Act.choose b c) (Act.whole_of_not_hidden hshown.1)).trans hc)

/-- **The picture of a step** in which calls are messages. -/
theorem atomic (h : Serving env .messages st pr n) (hfresh : DirFresh pr n)
    (hT : ∀ e st', Step st e st' → T e → Serving.Fair pr e)
    (hs : ProgStep env .messages T A st pr n st' pr' n') :
    ProgStep env .atomic T (Acts A pr) (atomicStage st pr) pr.atomic n (atomicStage st' pr')
      pr'.atomic n' := by
  cases hs with
  | quiet => exact .quiet
  | trap hs he => exact atomic_trap h hs he (hT _ _ hs he)
  | send hA hst hop => exact atomic_send h hfresh (Or.inl hA) hst hop
  | recv hA hst hop => exact atomic_recv h hfresh (Or.inl hA) hst hop
  | answer _ _ hop =>
      rw [Progs.op] at hop
      cases ha : pr.act _ <;> rw [ha] at hop <;> simp [Act.op] at hop
  | alloc hA hst hop hnew => exact atomic_alloc h hfresh (Or.inl hA) hst hop hnew
  | ready hA hst hop hpid => exact atomic_ready h hfresh (Or.inl hA) hst hop hpid
  | free hA hst hop hpid => exact atomic_free h hfresh (Or.inl hA) hst hop hpid
  | retSend hst => exact atomic_retSend h hst
  | retRecv hst => exact atomic_retRecv h hst
  | choose hst hc => exact atomic_choose hst hc

theorem mono {mode : Mode} {T' : Ev ℤ (Msg B) → Prop} {A' : ℤ → Prop} (hT : ∀ e, T e → T' e)
    (hA : ∀ p, A p → A' p) (hs : ProgStep env mode T A st pr n st' pr' n') :
    ProgStep env mode T' A' st pr n st' pr' n' := by
  cases hs with
  | quiet => exact .quiet
  | trap hs he => exact .trap hs (hT _ he)
  | send h hst hop => exact .send (hA _ h) hst hop
  | recv h hst hop => exact .recv (hA _ h) hst hop
  | answer h hst hop => exact .answer (hA _ h) hst hop
  | alloc h hst hop hnew => exact .alloc (hA _ h) hst hop hnew
  | ready h hst hop hpid => exact .ready (hA _ h) hst hop hpid
  | free h hst hop hpid => exact .free (hA _ h) hst hop hpid
  | retSend hst => exact .retSend hst
  | retRecv hst => exact .retRecv hst
  | choose hst hc => exact .choose hst hc

end ProgStep

/-! ### The first call of `sys_dir` -/

/-- A process does this after it has got a message: it does not wait for another one at once. -/
def Act.Onward : Act B → Prop
  | .notify | .await _ _ | .sysWait _ => False
  | _ => True

theorem Act.onward_resume (env : Env B) (k : Kont B) (b : Body B) :
    (Act.resume env k b).Onward := by
  cases k <;> cases b <;> simp only [Act.resume] <;> try trivial
  · split_ifs <;> trivial
  · rw [Act.loadNext]
    split <;> trivial

theorem Act.onward_afterRecv (env : Env B) (p q : ℤ) (m : Msg B) {mode : Mode} {tag : ℤ × ℕ}
    (hop : a.op mode tag = .recv) :
    (a.afterRecv env p q m).Onward := by
  cases a with
  | await r k =>
      rw [Act.afterRecv]
      split
      · cases r <;> trivial
      · exact Act.onward_resume env k m.body
  | serve =>
      simp only [Act.afterRecv, Act.handle]
      split
      · split <;> trivial
      · split <;> split <;> trivial
  | awaitReply cmd =>
      simp only [Act.afterRecv]
      split
      · split <;> trivial
      · trivial
  | awaitExit | sysWait => trivial
  | call r k => exact absurd hop Act.op_call_ne_recv
  | _ => simp [Act.op] at hop

namespace DirFresh

variable {T : Ev ℤ (Msg B) → Prop} {A : ℤ → Prop}

theorem of_le (h : DirFresh pr n) (hn : n ≤ n') (hcalls : pr'.calls GPID_DIR = pr.calls GPID_DIR)
    (hact : pr'.act GPID_DIR = .notify → n < 3 ∨ pr.act GPID_DIR = .notify) : DirFresh pr' n' := by
  intro hc
  rw [hcalls]
  rcases hc with hlt | ha
  · exact h (Or.inl (by omega))
  · exact h (hact ha)

/-- A change to the activity of one process. -/
theorem of_update (h : DirFresh pr n) (hcalls : pr'.calls GPID_DIR = pr.calls GPID_DIR)
    (hact : pr'.act = update pr.act p a) (ha : a ≠ .notify) : DirFresh pr' n := by
  refine h.of_le (Nat.le_refl n) hcalls fun hn => Or.inr ?_
  rw [hact] at hn
  by_cases hp : GPID_DIR = p
  · subst hp
    rw [update_self] at hn
    exact absurd hn ha
  · rwa [update_of_ne hp] at hn

theorem alloc (h : DirFresh pr n) (hop : pr.op GPID_PROCESS .messages = .alloc) :
    DirFresh (pr.allocated env GPID_PROCESS ((n : ℤ) + 1)) (n + 1) := by
  obtain ⟨-, b, hact, -⟩ := Progs.atomic_allocated env hop ((n : ℤ) + 1)
  refine h.of_le (Nat.le_succ n) ?_ fun hn => ?_
  · rw [Progs.allocated]
    split <;> rfl
  · rw [hact, update_of_ne (by decide)] at hn
    by_cases h3 : GPID_DIR = (n : ℤ) + 1
    · exact Or.inl (by have : (3 : ℤ) = n + 1 := h3; omega)
    · rw [update_of_ne h3] at hn
      exact Or.inr hn

theorem retRecv (h : DirFresh pr n) (hserv : Serving env .messages st pr n)
    (hst : st p = .got q m) : DirFresh (pr.received env p q m) n := by
  have hne : st p ≠ .unborn := by rw [hst]; simp
  have hop := (hserv.loc p hne).stage
  rw [hst] at hop
  have hnot : (pr.act p).afterRecv env p q m ≠ .notify := fun he => by
    have honward := Act.onward_afterRecv env p q m hop
    rw [he] at honward
    exact honward
  have hact : (pr.received env p q m).act =
      update pr.act p ((pr.act p).afterRecv env p q m) := by
    rw [Progs.received]
    split <;> rfl
  by_cases hp : GPID_DIR = p
  · -- it exists, and goes on with something else
    subst hp
    rintro (hlt | ha)
    · exact absurd ((hserv.born GPID_DIR).2 (Or.inr (by change (n : ℤ) < 3; omega))) hne
    · rw [hact, update_self] at ha
      exact absurd ha hnot
  · refine h.of_update ?_ hact hnot
    rw [Progs.received]
    split
    · exact update_of_ne hp _ _
    · rfl
    · rfl

theorem step (h : DirFresh pr n) (hserv : Serving env .messages st pr n)
    (hs : ProgStep env .messages T A st pr n st' pr' n') : DirFresh pr' n' := by
  cases hs with
  | quiet | trap | recv => exact h
  | send =>
      refine h.of_le (Nat.le_refl n) ?_ fun ha => Or.inr ?_
      · rw [Progs.note]
        split <;> rfl
      · rw [Progs.note] at ha
        split at ha <;> exact ha
  | answer _ _ hop =>
      rw [Progs.op] at hop
      cases ha : pr.act _ <;> rw [ha] at hop <;> simp [Act.op] at hop
  | alloc _ _ hop => exact h.alloc hop
  | ready _ _ hop =>
      obtain ⟨-, b, hact, -, hb⟩ := Progs.atomic_readied hop
      refine h.of_update ?_ hact hb
      rw [Progs.readied]
      split <;> rfl
  | free => exact h.of_update rfl rfl (by split <;> simp)
  | @retSend p q m ok hst =>
      refine h.of_update rfl rfl ?_
      have hop := (hserv.loc p (by rw [hst]; simp)).stage
      rw [hst] at hop
      have hop' : (pr.act p).op .messages (pr.tag p) = .send q m := hop
      cases ha : pr.act p <;> rw [ha] at hop' <;> simp [Act.op, Act.afterSend] at hop' ⊢
  | retRecv hst => exact h.retRecv hserv hst
  | @choose p c a hst hc =>
      refine h.of_update rfl rfl ?_
      rcases Act.choose_cases hc with ha | ha <;> rw [ha] at hc <;> cases c <;>
        simp [Act.choose] at hc <;> subst hc <;> simp

end DirFresh

/-! ### The dialogue of the shell -/

/-- `sys_proc` is about to free a process in the picture only if it is. -/
theorem Progs.op_free {pid : ℤ} (h : pr.atomic.op p .atomic = .free pid) :
    pr.op p .atomic = .free pid := by
  have hact : pr.atomic.act p = (pr.act p).whole := rfl
  rw [Progs.op, hact] at h
  rw [Progs.op]
  cases ha : pr.act p with
  | call r k | await r k =>
      rw [ha] at h
      cases k <;> simp [Act.whole, Act.op] at h
  | procFree pid' =>
      rw [ha] at h
      exact h
  | _ =>
      rw [ha] at h
      simp [Act.whole, Act.op] at h

/-- No trap is unfair in the picture. -/
theorem TrapKind.fair {e : Ev ℤ (Msg B)} (he : TrapKind e) : Serving.Fair pr.atomic e := by
  cases e with
  | give | take => exact fun _ r k ha => absurd ha (Act.whole_ne_await _ r k)
  | fail | block | wait => trivial
  | _ => exact he.elim

/-- What holds when calls are messages. -/
structure Calling (env : Env B) (st : ℤ → Stage ℤ (Msg B)) (pr : Progs B) (n : ℕ) : Prop where
  serving : Serving env .messages st pr n
  fresh : DirFresh pr n

/-- **What holds when calls are messages**, and of the picture. -/
structure Talking (env : Env B) (st : ℤ → Stage ℤ (Msg B)) (pr : Progs B) (n : ℕ) (t : Talk) : Prop
    extends Calling env st pr n where
  atomic : Serving env .atomic (atomicStage st pr) pr.atomic n
  dialogue : Dialogue (atomicStage st pr) pr.atomic t

section Steps

variable {T : Ev ℤ (Msg B) → Prop} {A : ℤ → Prop} {t : Talk}

theorem Calling.step (h : Calling env st pr n)
    (hT : ∀ e st', Step st e st' → T e → Serving.Fair pr e)
    (hs : ProgStep env .messages T A st pr n st' pr' n') : Calling env st' pr' n' :=
  ⟨h.serving.step hT hs, h.fresh.step h.serving hs⟩

theorem Talking.step (h : Talking env st pr n t) (hkind : ∀ e, T e → TrapKind e)
    (hT : ∀ e st', Step st e st' → T e → Serving.Fair pr e)
    (hord : A GPID_PROCESS → ∀ pid, pr.op GPID_PROCESS .atomic = .free pid →
      ¬ (pid = pr.appPid ∧ pr.shellWaiting = true ∧ pr.spawnOk = false))
    (hs : ProgStep env .messages T A st pr n st' pr' n') : ∃ t', Talking env st' pr' n' t' := by
  have hpicture := hs.atomic h.serving h.fresh hT
  have hfair : ∀ e st'', Step (atomicStage st pr) e st'' → T e → Serving.Fair pr.atomic e :=
    fun e _ _ he => (hkind e he).fair
  obtain ⟨t', hdial⟩ := h.dialogue.step h.atomic hfair (by
    rintro (hA | hop) pid hfree
    · exact hord hA pid (Progs.op_free hfree)
    · rw [hop] at hfree
      simp at hfree) hpicture
  exact ⟨t', h.toCalling.step hT hs, h.atomic.step hfair hpicture, hdial⟩

end Steps

/-! ### Runs -/

/-- **Shell and `sys_proc` are in step.** -/
structure Procs.InStep (s : Procs B) (t : Talk) : Prop where
  /-- All that `sys_proc` has done is allowed by the protocol. -/
  events : Talk.run s.progs.events = some t
  /-- The shell is still to receive what `sys_proc` is still to send. -/
  agree : shellWaits (s.stage GPID_SHELL) (s.progs.act GPID_SHELL) =
    procOwes (s.stage GPID_PROCESS) (s.progs.act GPID_PROCESS) t
  /-- The shell receives messages of `sys_proc` only. -/
  sender : ∀ q m, s.stage GPID_SHELL = .got q m → q = GPID_PROCESS

namespace World

variable {w w' : World B} {l : Move} {t : Talk}

/-- The stages of the processes, by their pids. -/
def stages (w : World B) (p : ℤ) : Stage ℤ (Msg B) :=
  if p ≤ 0 ∨ (w.sys.kernel.procNprocs : ℤ) < p then .unborn else w.stage p

/-- The processes of the machine. -/
def procs (w : World B) : Procs B := ⟨w.stages, w.progs, w.sys.kernel.procNprocs⟩

theorem stages_eq (hsim : Sys.Sim copyMsg w.sys st) : w.stages = st := by
  funext p
  rw [stages]
  by_cases hp : st p = .unborn
  · rw [if_pos ((hsim.unborn p).1 hp), hp]
  · rw [if_neg (mt (hsim.unborn p).2 hp), stage_eq hsim hp]

theorem procs_eq (hsim : Sys.Sim copyMsg w.sys st) :
    w.procs = ⟨st, w.progs, w.sys.kernel.procNprocs⟩ := by
  rw [procs, stages_eq hsim]

theorem Trap.kind {e : Ev ℤ (Msg B)} (h : w.Trap l e) : TrapKind e := by
  obtain ⟨-, -, -, hev⟩ := h
  cases e <;> first | exact trivial | exact hev.elim

/-- A move in which nobody is disturbed. -/
theorem Undisturbed.progStep (hu : w.Undisturbed l) (hsim : Sys.Sim copyMsg w.sys st)
    (hs : w.step env .messages l = some w') : w.Simulated env .messages st l w' := by
  refine World.progStep hsim ?_ hs
  rintro rfl hop
  exact hu hop

theorem calling_boot (mem : ℤ → Syscall (Msg B)) (registers : Fin 29 → UInt32) :
    Calling env Sys.stage₀ (boot mem registers).progs 1 :=
  ⟨serving_boot mem registers, fun _ => rfl⟩

theorem talking_boot (mem : ℤ → Syscall (Msg B)) (registers : Fin 29 → UInt32) :
    Talking env Sys.stage₀ (boot mem registers).progs 1 .idle := by
  have hprogs : (boot mem registers : World B).progs.atomic =
      (boot mem registers : World B).progs := by
    simp [boot, Progs.atomic, Act.whole]
  have hstage : atomicStage Sys.stage₀ (boot mem registers : World B).progs = Sys.stage₀ :=
    funext fun p => shown_of_not_hidden rfl
  refine ⟨calling_boot mem registers, ?_, ?_⟩
  · rw [hprogs, hstage]
    exact serving_boot mem registers
  · rw [hprogs, hstage]
    exact dialogue_boot mem registers

/-- What an orderly move is for `sys_proc`. -/
theorem Orderly.free (hord : w.Orderly l) (hA : l = .act ∧ GPID_PROCESS = w.sys.curr) (pid : ℤ)
    (hop : w.progs.op GPID_PROCESS .atomic = .free pid) :
    ¬ (pid = w.progs.appPid ∧ w.progs.shellWaiting = true ∧ w.progs.spawnOk = false) := by
  obtain ⟨rfl, hcurr⟩ := hA
  rintro ⟨rfl, hw, hok⟩
  rw [hcurr] at hop
  rw [hord.2 hop hw] at hok
  simp at hok

end World

/-- **Calls by messages refine calls that are answered at once.**  In a run in which nobody disturbs
a server that waits for a reply, every step is one of the system in which calls are answered at
once, or does not change the picture of it. -/
theorem messages_refine_atomic (env : Env B) (mem : ℤ → Syscall (Msg B))
    (registers : Fin 29 → UInt32) (ls : List Move)
    (h : Runs.EveryStep (fun w l => w.step env .messages l) (fun w l _ => w.Undisturbed l)
      (World.boot mem registers) ls) :
    Runs.EveryStep (fun w l => w.step env .messages l)
      (fun w _ w' => AtomicStep env w.procs.atomic w'.procs.atomic)
      (World.boot mem registers) ls := by
  refine Runs.EveryStep.imp (I := fun w _ => ∃ st, Sys.Sim World.copyMsg w.sys st ∧
    Calling env st w.progs w.sys.kernel.procNprocs) ?_ ls _ ?_ h
  · rintro w l - w' ⟨st, hsim, hc⟩ hs hu
    obtain ⟨st', hsim', hstep⟩ := hu.progStep hsim hs
    have hfair : ∀ e st'', Step st e st'' → w.Trap l e → Serving.Fair w.progs e :=
      fun e _ he hT => hu.fair hsim he hT
    refine ⟨?_, st', hsim', hc.step hfair hstep⟩
    rw [World.procs_eq hsim, World.procs_eq hsim']
    exact (hstep.atomic hc.serving hc.fresh hfair).mono (fun _ => World.Trap.kind)
      fun _ _ => trivial
  · exact ⟨_, Sys.sim_boot mem registers, World.calling_boot mem registers⟩

theorem quietRun_orderly :
    Runs.EveryStep (fun w l => w.step smallEnv .messages l)
      (fun w l _ => w.Undisturbed l ∧ w.Orderly l) smallBoot quietRun := by
  decide +kernel

theorem quietRun_end :
    (smallBoot.run smallEnv .messages quietRun).any (fun w => w.progs.calls GPID_PROCESS = 2 ∧
      w.progs.events = [.request ⟨['c', 'd'], []⟩]) = true := by
  decide +kernel

theorem messages_refine_atomic_quietRun :
    (smallBoot.run smallEnv .messages quietRun).any (fun w => w.progs.calls GPID_PROCESS = 2 ∧
      w.progs.events = [.request ⟨['c', 'd'], []⟩]) = true ∧
      Runs.EveryStep (fun w l => w.step smallEnv .messages l)
        (fun w _ w' => AtomicStep smallEnv w.procs.atomic w'.procs.atomic) smallBoot quietRun :=
  ⟨quietRun_end, messages_refine_atomic smallEnv _ _ quietRun
    (.imp (I := fun _ _ => True) (fun _ _ _ _ _ _ h => ⟨h.1, trivial⟩) _ _ trivial
      quietRun_orderly)⟩

/-- **Shell and `sys_proc` stay in step when calls are messages**, if nobody disturbs a server that
waits for a reply, and `sys_proc` does not take the end of an older process for that of a command
which has failed. -/
theorem messages_in_step (env : Env B) (mem : ℤ → Syscall (Msg B)) (registers : Fin 29 → UInt32)
    (ls : List Move)
    (h : Runs.EveryStep (fun w l => w.step env .messages l)
      (fun w l _ => w.Undisturbed l ∧ w.Orderly l) (World.boot mem registers) ls) :
    Runs.EveryStep (fun w l => w.step env .messages l)
      (fun _ _ w' => ∃ t, w'.procs.atomic.InStep t) (World.boot mem registers) ls := by
  refine Runs.EveryStep.imp (I := fun w _ => ∃ st t, Sys.Sim World.copyMsg w.sys st ∧
    Talking env st w.progs w.sys.kernel.procNprocs t) ?_ ls _ ?_ h
  · rintro w l - w' ⟨st, t, hsim, ht⟩ hs ⟨hu, hord⟩
    obtain ⟨st', hsim', hstep⟩ := hu.progStep hsim hs
    obtain ⟨t', ht'⟩ := ht.step (fun _ => World.Trap.kind) (fun e _ he hT => hu.fair hsim he hT)
      hord.free hstep
    refine ⟨⟨t', ?_⟩, st', t', hsim', ht'⟩
    rw [World.procs_eq hsim']
    exact ⟨ht'.dialogue.events, ht'.dialogue.agree, ht'.dialogue.sender⟩
  · exact ⟨_, _, Sys.sim_boot mem registers, World.talking_boot mem registers⟩

theorem messages_in_step_quietRun :
    (smallBoot.run smallEnv .messages quietRun).any (fun w => w.progs.calls GPID_PROCESS = 2 ∧
      w.progs.events = [.request ⟨['c', 'd'], []⟩]) = true ∧
      Runs.EveryStep (fun w l => w.step smallEnv .messages l)
        (fun _ _ w' => ∃ t, w'.procs.atomic.InStep t) smallBoot quietRun :=
  ⟨quietRun_end, messages_in_step smallEnv _ _ quietRun quietRun_orderly⟩

end Egos
