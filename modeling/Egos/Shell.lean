/-
**The dialogue of the shell and `sys_proc`.**

For a command the shell sends `PROC_SPAWN` to `sys_proc`, and receives one message if the command
fails or runs in the background, and otherwise a second one, when the process has ended.  `sys_proc`
keeps track of this in `app_pid` and `shell_waiting`, but an `app_spawn` that fails leaves `app_pid`
as it is: if this is a process in the background and the failed command was one for the foreground,
the end of the process is told to a shell that does not expect it.  The shell sends its next request
to `sys_proc`, and both wait for each other.

Here `dir_lookup` and `file_read` are answered at once.

Main definitions:

* `Egos.Talk.next` — **the protocol**: what `sys_proc` may do, and when;
* `Egos.shellWaits`, `Egos.procOwes` — the message that the shell is still to receive, and the one
  that `sys_proc` is still to send;
* `Egos.World.InStep` — the protocol is kept, and both agree;
* `Egos.World.Orderly` — the condition on the moves of a run.

Main results:

* `Egos.shell_in_step` — **shell and `sys_proc` stay in step in an orderly run**;
* `Egos.shell_deadlock` — a run after which they wait for each other.
-/

import Egos.Servers

set_option autoImplicit false

namespace Egos

open Function (update update_eq_self update_of_ne update_self)
open Rendezvous (Stage Ev Step)

/-! ### The protocol -/

/-- How far `sys_proc` has got with a request of the shell. -/
inductive Talk
  | idle
  /-- The request was taken. -/
  | asked (cmd : Cmd)
  /-- A process was created for it. -/
  | spawned (cmd : Cmd) (pid : ℤ)
  /-- The shell was told, and is to be told when the process has ended. -/
  | running (pid : ℤ)
  | ended (pid : ℤ)
  deriving DecidableEq

namespace Talk

/-- **The protocol.** -/
def next : Talk → Event → Option Talk
  | .idle, .request cmd => some (.asked cmd)
  | .idle, .killall => some .idle
  | .idle, .exit _ => some .idle
  | .asked _, .tell false => some .idle
  | .asked cmd, .spawn pid => some (.spawned cmd pid)
  | .spawned cmd pid, .tell true => some (if cmd.foreground then .running pid else .idle)
  | .running pid, .exit pid' => some (if pid' = pid then .ended pid else .running pid)
  | .ended _, .tell _ => some .idle
  | _, _ => none

/-- The events are allowed by the protocol, and lead to a state. -/
def run (es : List Event) : Option Talk := es.foldlM next .idle

theorem run_append {es : List Event} {e : Event} {t t' : Talk} (h : run es = some t)
    (he : t.next e = some t') : run (es ++ [e]) = some t' := by
  rw [run, List.foldlM_append, show es.foldlM next .idle = some t from h]
  simp [he]

end Talk

/-- The messages to the shell. -/
inductive Wait
  | nothing
  /-- The reply to a request. -/
  | reply (cmd : Cmd)
  /-- The end of a process. -/
  | exit
  deriving DecidableEq

/-- The message that `sys_proc` has to send next. -/
def Talk.pending : Talk → Wait
  | .idle => .nothing
  | .asked cmd | .spawned cmd _ => .reply cmd
  | .running _ | .ended _ => .exit

variable {B : Type}

/-- The message that the shell is still to receive, after its request was handed over. -/
def shellWaits (x : Stage ℤ (Msg B)) (a : Act B) : Wait :=
  match a, x with
  | _, .unborn | _, .dead => .nothing
  | .command cmd, .sent _ _ _ => .reply cmd
  | .awaitReply cmd, .got _ m =>
      match m.body with
      | .procReply true => if cmd.foreground then .exit else .nothing
      | _ => .nothing
  | .awaitReply cmd, _ => .reply cmd
  | .awaitExit, .got _ _ => .nothing
  | .awaitExit, _ => .exit
  | _, _ => .nothing

/-- The message that `sys_proc` is still to hand over: it is in the call of `sys_send`, or has to
send it next. -/
def procOwes (x : Stage ℤ (Msg B)) (a : Act B) (t : Talk) : Wait :=
  match a, x with
  | .serve, .got _ ⟨.spawn cmd, _⟩ => .reply cmd
  | .spawned cmd _, .sendCall _ _ | .spawned cmd _, .waitSend _ _ => .reply cmd
  | .exited, .sendCall _ _ | .exited, .waitSend _ _ => .exit
  | _, _ => t.pending

/-! ### The invariant -/

/-- The process exists. -/
def Exists (x : Stage ℤ (Msg B)) : Prop := x ≠ .dead ∧ x ≠ .unborn

/-- `sys_proc` has nothing to tell to the shell yet. -/
def Rest (st : ℤ → Stage ℤ (Msg B)) (pr : Progs B) : Talk → Prop
  | .idle => pr.shellWaiting = true → pr.spawnOk = true → st pr.appPid = .dead
  | .running pid => pr.appPid = pid ∧ pr.shellWaiting = true ∧ Exists (st pid)
  | _ => False

/-- `sys_proc` has created a process for the request. -/
def Spawned (st : ℤ → Stage ℤ (Msg B)) (pr : Progs B) (t : Talk) (cmd : Cmd) (pid : ℤ) : Prop :=
  t = .spawned cmd pid ∧ pr.appPid = pid ∧ Exists (st pid)

/-- What `sys_proc` has received. -/
def Heard (st : ℤ → Stage ℤ (Msg B)) (t : Talk) (s : ℤ) : Body B → Prop
  | .spawn _ | .killall => t = .idle
  | .exit => s ≥ GPID_USER_START ∧ Exists (st s)
  | _ => True

/-- The state of the protocol fits what `sys_proc` is about to do. -/
def ProcFits (st : ℤ → Stage ℤ (Msg B)) (pr : Progs B) (t : Talk) (x : Stage ℤ (Msg B)) :
    Act B → Prop
  | .sysAlloc _ | .sysReady _ _ | .sysWait _ => Rest st pr t
  | .serve => Rest st pr t ∧ ∀ s m, x = .got s m → Heard st t s m.body
  | .procFree pid => Rest st pr t ∧ (pid = -1 ∧ t = .idle ∨ pid ≥ GPID_USER_START ∧ Exists (st pid))
  | .call _ (.bin cmd) | .call _ (.app cmd) | .appAlloc cmd _ => t = .asked cmd
  | .call _ (.load cmd pid _ _) | .appReady cmd pid => Spawned st pr t cmd pid
  | .spawned cmd ok =>
      (x = .user → if ok then ∃ pid, Spawned st pr t cmd pid else t = .asked cmd) ∧
        (x ≠ .user → Rest st pr t ∧ t.pending = if ok && cmd.foreground then .exit else .nothing)
  | .exited =>
      (x = .user → ∃ pid, t = .ended pid ∧ pr.appPid = pid ∧ st pid = .dead) ∧
        (x ≠ .user → Rest st pr t ∧ t = .idle)
  | _ => True

/-- **The invariant of the dialogue.** -/
structure Dialogue (st : ℤ → Stage ℤ (Msg B)) (pr : Progs B) (t : Talk) : Prop where
  events : Talk.run pr.events = some t
  fits : ProcFits st pr t (st GPID_PROCESS) (pr.act GPID_PROCESS)
  /-- The shell and `sys_proc` agree. -/
  agree : shellWaits (st GPID_SHELL) (pr.act GPID_SHELL) =
    procOwes (st GPID_PROCESS) (pr.act GPID_PROCESS) t
  sender : ∀ s m, st GPID_SHELL = .got s m → s = GPID_PROCESS
  live : st GPID_PROCESS ≠ .dead ∧ st GPID_SHELL ≠ .dead

variable {env : Env B} {st st' : ℤ → Stage ℤ (Msg B)} {pr pr' : Progs B} {n : ℕ} {t t' : Talk}
  {p : ℤ} {x : Stage ℤ (Msg B)} {a : Act B}

/-- The same processes are dead, and `sys_proc` has the same variables. -/
structure Same (st : ℤ → Stage ℤ (Msg B)) (pr : Progs B) (st' : ℤ → Stage ℤ (Msg B))
    (pr' : Progs B) : Prop where
  dead : ∀ q, st' q = .dead ↔ st q = .dead
  born : ∀ q, st' q = .unborn → st q = .unborn
  appPid : pr'.appPid = pr.appPid
  shellWaiting : pr'.shellWaiting = pr.shellWaiting
  spawnOk : pr'.spawnOk = pr.spawnOk

theorem Same.live (hs : Same st pr st' pr') (h : st GPID_PROCESS ≠ .dead ∧ st GPID_SHELL ≠ .dead) :
    st' GPID_PROCESS ≠ .dead ∧ st' GPID_SHELL ≠ .dead :=
  ⟨mt (hs.dead _).1 h.1, mt (hs.dead _).1 h.2⟩

theorem Same.exists (hs : Same st pr st' pr') {q : ℤ} (h : Exists (st q)) : Exists (st' q) :=
  ⟨mt (hs.dead q).1 h.1, mt (hs.born q) h.2⟩

theorem Same.update (hp : st p ≠ .dead) (hx : Exists x) (hpid : pr'.appPid = pr.appPid)
    (hwait : pr'.shellWaiting = pr.shellWaiting) (hok : pr'.spawnOk = pr.spawnOk) :
    Same st pr (update st p x) pr' := by
  refine ⟨fun q => ?_, fun q => ?_, hpid, hwait, hok⟩ <;> by_cases hq : q = p
  · subst hq
    rw [update_self]
    exact ⟨fun h => absurd h hx.1, fun h => absurd h hp⟩
  · rw [update_of_ne hq]
  · subst hq
    rw [update_self]
    exact fun h => absurd h hx.2
  · rw [update_of_ne hq]
    exact id

theorem Rest.same (hs : Same st pr st' pr') (h : Rest st pr t) : Rest st' pr' t := by
  cases t with
  | idle =>
      intro hw hok
      rw [hs.appPid, hs.dead]
      exact h (hs.shellWaiting ▸ hw) (hs.spawnOk ▸ hok)
  | running pid =>
      obtain ⟨hpid, hw, hlive⟩ := h
      exact ⟨hs.appPid.trans hpid, hs.shellWaiting.trans hw, hs.exists hlive⟩
  | _ => exact h

theorem Spawned.same {cmd : Cmd} {pid : ℤ} (hs : Same st pr st' pr') (h : Spawned st pr t cmd pid) :
    Spawned st' pr' t cmd pid :=
  ⟨h.1, hs.appPid.trans h.2.1, hs.exists h.2.2⟩

theorem Heard.same {s : ℤ} {b : Body B} (hs : Same st pr st' pr') (h : Heard st t s b) :
    Heard st' t s b := by
  cases b with
  | exit => exact ⟨h.1, hs.exists h.2⟩
  | _ => exact h

theorem ProcFits.same (hs : Same st pr st' pr') (h : ProcFits st pr t x a) :
    ProcFits st' pr' t x a := by
  cases a with
  | sysAlloc | sysReady | sysWait => exact Rest.same hs h
  | serve => exact ⟨Rest.same hs h.1, fun s m hx => Heard.same hs (h.2 s m hx)⟩
  | procFree pid =>
      refine ⟨Rest.same hs h.1, ?_⟩
      rcases h.2 with h' | ⟨hpid, hlive⟩
      · exact Or.inl h'
      · exact Or.inr ⟨hpid, hs.exists hlive⟩
  | call r k =>
      cases k with
      | load => exact Spawned.same hs h
      | _ => exact h
  | appReady => exact Spawned.same hs h
  | spawned cmd ok =>
      refine ⟨fun hx => ?_, fun hx => ⟨Rest.same hs (h.2 hx).1, (h.2 hx).2⟩⟩
      cases ok with
      | false => exact h.1 hx
      | true =>
          obtain ⟨pid, hp⟩ := h.1 hx
          exact ⟨pid, Spawned.same hs hp⟩
  | exited =>
      refine ⟨fun hx => ?_, fun hx => ⟨Rest.same hs (h.2 hx).1, (h.2 hx).2⟩⟩
      obtain ⟨pid, ht, hpid, hdead⟩ := h.1 hx
      exact ⟨pid, ht, hs.appPid.trans hpid, (hs.dead pid).2 hdead⟩
  | _ => exact h

namespace Dialogue

/-- A step that concerns neither of them. -/
theorem other (h : Dialogue st pr t) (hs : Same st pr st' pr')
    (h1 : st' GPID_PROCESS = st GPID_PROCESS) (h4 : st' GPID_SHELL = st GPID_SHELL)
    (ha1 : pr'.act GPID_PROCESS = pr.act GPID_PROCESS)
    (ha4 : pr'.act GPID_SHELL = pr.act GPID_SHELL)
    (he : pr'.events = pr.events) : Dialogue st' pr' t := by
  refine ⟨he ▸ h.events, ?_, ?_, ?_, hs.live h.live⟩
  · rw [h1, ha1]
    exact h.fits.same hs
  · rw [h1, h4, ha1, ha4]
    exact h.agree
  · rw [h4]
    exact h.sender

/-- A step of the shell. -/
theorem shell (h : Dialogue st pr t) (hs : Same st pr (update st GPID_SHELL x) pr')
    (ha1 : pr'.act GPID_PROCESS = pr.act GPID_PROCESS) (ha4 : pr'.act GPID_SHELL = a)
    (he : pr'.events = pr.events)
    (hw : shellWaits x a = shellWaits (st GPID_SHELL) (pr.act GPID_SHELL))
    (hx : ∀ s m, x = .got s m → s = GPID_PROCESS) :
    Dialogue (update st GPID_SHELL x) pr' t := by
  have h1 : update st GPID_SHELL x GPID_PROCESS = st GPID_PROCESS :=
    update_of_ne (by decide) _ _
  refine ⟨he ▸ h.events, ?_, ?_, ?_, hs.live h.live⟩
  · rw [h1, ha1]
    exact h.fits.same hs
  · rw [h1, update_self, ha1, ha4, hw]
    exact h.agree
  · rw [update_self]
    exact hx

/-- A step of `sys_proc`. -/
theorem proc (h : Dialogue st pr t) (ha1 : pr'.act GPID_PROCESS = a)
    (ha4 : pr'.act GPID_SHELL = pr.act GPID_SHELL) (he : Talk.run pr'.events = some t')
    (hfits : ProcFits (update st GPID_PROCESS x) pr' t' x a) (hx : x ≠ .dead)
    (ho : procOwes x a t' = procOwes (st GPID_PROCESS) (pr.act GPID_PROCESS) t) :
    Dialogue (update st GPID_PROCESS x) pr' t' := by
  have h4 : update st GPID_PROCESS x GPID_SHELL = st GPID_SHELL :=
    update_of_ne (by decide) _ _
  refine ⟨he, ?_, ?_, ?_, ?_⟩
  · rw [update_self, ha1]
    exact hfits
  · rw [update_self, h4, ha1, ha4, ho]
    exact h.agree
  · rw [h4]
    exact h.sender
  · rw [update_self, h4]
    exact ⟨hx, h.live.2⟩

/-! ### Messages -/

/-- The messages that are sent when `dir_lookup` and `file_read` are answered at once. -/
inductive Sends (p q : ℤ) (m : Msg B) : Act B → Prop
  | reply {cmd : Cmd} {ok : Bool} (hp : p = GPID_PROCESS) (hq : q = GPID_SHELL)
      (hm : m.body = .procReply ok) : Sends p q m (.spawned cmd ok)
  | exited (hp : p = GPID_PROCESS) (hq : q = GPID_SHELL) (hm : m.body = .procReply false) :
      Sends p q m .exited
  | command {cmd : Cmd} (hp : p = GPID_SHELL) (hq : q = GPID_PROCESS) (hm : m.body = .spawn cmd) :
      Sends p q m (.command cmd)
  | killall (hp : p = GPID_SHELL) (hq : q = GPID_PROCESS) (hm : m.body = .killall) :
      Sends p q m .killall
  | exit (hp : p ≥ GPID_USER_START) (hq : q = GPID_PROCESS) (hm : m.body = .exit) :
      Sends p q m .exit
  | notify (hp : p = GPID_FILE ∨ p = GPID_DIR) (hq : q = GPID_PROCESS) (hm : m.body = .finish) :
      Sends p q m .notify
  | server (hp : p = GPID_FILE ∨ p = GPID_DIR) : Sends p q m (.reply q m)

theorem sends {tag : ℤ × ℕ} {q : ℤ} {m : Msg B} (hfit : a.Fits p)
    (hop : a.op .atomic tag = .send q m) : Sends p q m a := by
  cases a with
  | spawned cmd ok =>
      obtain ⟨rfl, rfl⟩ := Op.send.inj hop
      exact .reply hfit rfl rfl
  | exited =>
      obtain ⟨rfl, rfl⟩ := Op.send.inj hop
      exact .exited hfit rfl rfl
  | command cmd =>
      obtain ⟨rfl, rfl⟩ := Op.send.inj hop
      exact .command hfit rfl rfl
  | killall =>
      obtain ⟨rfl, rfl⟩ := Op.send.inj hop
      exact .killall hfit rfl rfl
  | exit =>
      obtain ⟨rfl, rfl⟩ := Op.send.inj hop
      exact .exit hfit rfl rfl
  | notify =>
      obtain ⟨rfl, rfl⟩ := Op.send.inj hop
      exact .notify hfit rfl rfl
  | reply c m' =>
      obtain ⟨rfl, rfl⟩ := Op.send.inj hop
      exact .server hfit
  | _ => simp [Act.op] at hop

/-- What `sys_proc` sends goes to the shell. -/
theorem Sends.of_process {q : ℤ} {m : Msg B} (h : Sends GPID_PROCESS q m a) :
    q = GPID_SHELL ∧
      ((∃ cmd ok, a = .spawned cmd ok ∧ m.body = .procReply ok) ∨ a = .exited) := by
  cases h with
  | reply _ hq hm => exact ⟨hq, Or.inl ⟨_, _, rfl, hm⟩⟩
  | exited _ hq => exact ⟨hq, Or.inr rfl⟩
  | command hp | killall hp | exit hp | notify hp | server hp => exact absurd hp (by decide)

/-- What the shell sends. -/
theorem Sends.of_shell {q : ℤ} {m : Msg B} (h : Sends GPID_SHELL q m a) :
    (∃ cmd, a = .command cmd) ∨ a = .killall := by
  cases h with
  | command => exact Or.inl ⟨_, rfl⟩
  | killall => exact Or.inr rfl
  | reply hp | exited hp | exit hp | notify hp | server hp => exact absurd hp (by decide)

/-- A process that is in the middle of `sys_send`. -/
theorem sends_of_stage {q : ℤ} {m : Msg B} (hserv : Serving env .atomic st pr n)
    (hp : st p = .sendCall q m ∨ st p = .waitSend q m) : Sends p q m (pr.act p) := by
  obtain ⟨hne, -, -, hop⟩ := hserv.of_sending hp
  exact sends (hserv.loc p hne).fits hop

/-- No server has a client to reply to. -/
theorem no_reply {q : ℤ} {m : Msg B} (hserv : Serving env .atomic st pr n)
    (hp : st p = .sendCall q m ∨ st p = .waitSend q m) (hq : st q ≠ .dead) :
    pr.act p ≠ .reply q m := by
  intro ha
  obtain ⟨hne, hlive, hsent, -⟩ := hserv.of_sending hp
  have ho : Owes (st p) (pr.act p) q m.tag := by
    rw [ha]
    exact .reply hsent
  rcases hserv.debt p q m.tag hlive hne ho with hd | ⟨r, -, ⟨-, ⟨k, hk, hs⟩ | ⟨k, hk, hs⟩⟩, -⟩
  · exact hq hd
  · -- a call that is answered at once sends nothing
    have hne' : st q ≠ .unborn := by
      intro hu
      rw [hu] at hs
      exact hs trivial
    have hst := (hserv.loc q hne').stage
    rw [hk] at hst
    generalize st q = y at hs hst
    cases y with
    | sent => simp [StageFits, Act.op] at hst
    | _ => exact hs trivial
  · have hne' : st q ≠ .unborn := by rcases hs with hs | hs | hs <;> rw [hs] <;> simp
    exact (hserv.loc q hne').atomic rfl r k hk

/-- What `sys_proc` may wait for. -/
theorem proc_recv (hserv : Serving env .atomic st pr n)
    (h1 : st GPID_PROCESS = .waitRecv ∨ st GPID_PROCESS = .recvCall) :
    pr.act GPID_PROCESS = .serve ∨ ∃ k, pr.act GPID_PROCESS = .sysWait k := by
  obtain ⟨hne, -, hop⟩ := hserv.of_receiving h1
  have hloc := hserv.loc GPID_PROCESS hne
  rcases Serving.recv_cases hloc.fits hop with ha | ⟨r, k, ha⟩ | ⟨k, ha, -⟩ | ⟨-, h4⟩
  · exact Or.inl ha
  · exact absurd ha (hloc.atomic rfl r k)
  · exact Or.inr ⟨k, ha⟩
  · exact absurd h4 (by decide)

/-- What the shell may wait for. -/
theorem shell_recv (hserv : Serving env .atomic st pr n)
    (h4 : st GPID_SHELL = .waitRecv ∨ st GPID_SHELL = .recvCall) :
    (∃ cmd, pr.act GPID_SHELL = .awaitReply cmd) ∨ pr.act GPID_SHELL = .awaitExit := by
  obtain ⟨hne, -, hop⟩ := hserv.of_receiving h4
  exact hserv.shell_recv hne hop

/-- The shell gets a message of `sys_proc`. -/
theorem deliver_shell {m : Msg B} (h : Dialogue st pr t) (hserv : Serving env .atomic st pr n)
    (h1 : st GPID_PROCESS = .sendCall GPID_SHELL m ∨ st GPID_PROCESS = .waitSend GPID_SHELL m)
    (h4 : st GPID_SHELL = .waitRecv ∨ st GPID_SHELL = .recvCall) :
    Dialogue (update (update st GPID_PROCESS (.sent GPID_SHELL m true)) GPID_SHELL
      (.got GPID_PROCESS m)) pr t := by
  have hsends := sends_of_stage hserv h1
  have hagree := h.agree
  have hfits := h.fits
  have hx : st GPID_PROCESS ≠ .user := by rcases h1 with h1 | h1 <;> rw [h1] <;> simp
  have hst1 : update (update st GPID_PROCESS (.sent GPID_SHELL m true)) GPID_SHELL
      (.got GPID_PROCESS m) GPID_PROCESS = .sent GPID_SHELL m true := by
    rw [update_of_ne (by decide), update_self]
  have hs1 : Same st pr (update st GPID_PROCESS (.sent GPID_SHELL m true)) pr :=
    Same.update (by rcases h1 with h1 | h1 <;> rw [h1] <;> simp) (by simp [Exists]) rfl rfl rfl
  have hs4 : Same (update st GPID_PROCESS (.sent GPID_SHELL m true)) pr
      (update (update st GPID_PROCESS (.sent GPID_SHELL m true)) GPID_SHELL
        (.got GPID_PROCESS m)) pr := by
    refine Same.update ?_ (by simp [Exists]) rfl rfl rfl
    rw [update_of_ne (by decide)]
    rcases h4 with h4 | h4 <;> rw [h4] <;> simp
  refine ⟨h.events, ?_, ?_, ?_, hs4.live (hs1.live h.live)⟩
  · rw [hst1]
    refine (ProcFits.same hs1 ?_).same hs4
    generalize pr.act GPID_PROCESS = b at hsends hfits ⊢
    obtain ⟨-, ⟨cmd, ok, rfl, -⟩ | rfl⟩ := hsends.of_process
    · exact ⟨fun he => absurd he (by simp), fun _ => hfits.2 hx⟩
    · exact ⟨fun he => absurd he (by simp), fun _ => hfits.2 hx⟩
  · rw [hst1, update_self]
    have hshell := shell_recv hserv h4
    generalize pr.act GPID_SHELL = c at hshell hagree ⊢
    generalize pr.act GPID_PROCESS = b at hsends hfits hagree ⊢
    obtain ⟨-, ⟨cmd, ok, rfl, hm⟩ | rfl⟩ := hsends.of_process
    · have howes : procOwes (st GPID_PROCESS) (.spawned cmd ok) t = .reply cmd := by
        rcases h1 with h1 | h1 <;> rw [h1] <;> rfl
      rw [howes] at hagree
      rcases hshell with ⟨cmd', rfl⟩ | rfl
      · have hcmd : cmd' = cmd := by
          rcases h4 with h4 | h4 <;> rw [h4] at hagree <;> exact Wait.reply.inj hagree
        subst hcmd
        change _ = t.pending
        rw [(hfits.2 hx).2]
        simp only [shellWaits, hm]
        cases ok <;> rfl
      · rcases h4 with h4 | h4 <;> rw [h4] at hagree <;>
          exact absurd hagree (by simp [shellWaits])
    · have howes : procOwes (st GPID_PROCESS) .exited t = .exit := by
        rcases h1 with h1 | h1 <;> rw [h1] <;> rfl
      rw [howes] at hagree
      rcases hshell with ⟨cmd', rfl⟩ | rfl
      · rcases h4 with h4 | h4 <;> rw [h4] at hagree <;>
          exact absurd hagree (by simp [shellWaits])
      · change _ = t.pending
        rw [(hfits.2 hx).2]
        rfl
  · rw [update_self]
    intro s m' hg
    exact (Stage.got.inj hg).1.symm

theorem pending_eq_nothing (ht : t.pending = .nothing) : t = .idle := by
  cases t with
  | idle => rfl
  | _ => simp [Talk.pending] at ht

theorem owes_user : procOwes .user a t = t.pending := by
  cases a <;> rfl

/-- `sys_proc` has no message in hand while it waits. -/
theorem owes_recv (hserv : Serving env .atomic st pr n)
    (h1 : st GPID_PROCESS = .waitRecv ∨ st GPID_PROCESS = .recvCall) :
    procOwes (st GPID_PROCESS) (pr.act GPID_PROCESS) t = t.pending := by
  rcases proc_recv hserv h1 with ha | ⟨k, ha⟩ <;> rw [ha] <;> rcases h1 with h1 | h1 <;> rw [h1] <;>
    rfl

/-- `sys_proc` gets a message: it is one that it may get now, and all agree on what is to be
sent. -/
theorem receive_proc {m : Msg B} (h : Dialogue st pr t) (hserv : Serving env .atomic st pr n)
    (hp : st p = .sendCall GPID_PROCESS m ∨ st p = .waitSend GPID_PROCESS m)
    (h1 : st GPID_PROCESS = .waitRecv ∨ st GPID_PROCESS = .recvCall)
    (hheard : Heard (update st p (.sent GPID_PROCESS m true)) t p m.body)
    (hagree : shellWaits (update st p (.sent GPID_PROCESS m true) GPID_SHELL)
      (pr.act GPID_SHELL) = procOwes (.got p m) (pr.act GPID_PROCESS) t) :
    Dialogue (update (update st p (.sent GPID_PROCESS m true)) GPID_PROCESS
      (.got p m)) pr t := by
  have hp1 : p ≠ GPID_PROCESS := by
    rintro rfl
    rcases hp with hp | hp <;> rcases h1 with h1 | h1 <;> rw [hp] at h1 <;> simp at h1
  have hsp : Same st pr (update st p (.sent GPID_PROCESS m true)) pr :=
    Same.update (by rcases hp with hp | hp <;> rw [hp] <;> simp) (by simp [Exists]) rfl rfl rfl
  have hs1 : Same (update st p (.sent GPID_PROCESS m true)) pr
      (update (update st p (.sent GPID_PROCESS m true)) GPID_PROCESS (.got p m))
      pr := by
    refine Same.update ?_ (by simp [Exists]) rfl rfl rfl
    rw [update_of_ne hp1.symm]
    rcases h1 with h1 | h1 <;> rw [h1] <;> simp
  have h4 : update (update st p (.sent GPID_PROCESS m true)) GPID_PROCESS
      (.got p m) GPID_SHELL = update st p (.sent GPID_PROCESS m true) GPID_SHELL :=
    update_of_ne (by decide) _ _
  refine ⟨h.events, ?_, ?_, ?_, hs1.live (hsp.live h.live)⟩
  · rw [update_self]
    refine ProcFits.same hs1 ?_
    have hfits := h.fits.same hsp
    rcases proc_recv hserv h1 with ha | ⟨k, ha⟩ <;> rw [ha] at hfits ⊢
    · refine ⟨hfits.1, fun s m' hg => ?_⟩
      obtain ⟨rfl, rfl⟩ := Stage.got.inj hg
      exact hheard
    · exact hfits
  · rw [update_self, h4]
    exact hagree
  · rw [h4]
    by_cases hp4 : p = GPID_SHELL
    · subst hp4
      rw [update_self]
      exact fun s m' hg => absurd hg (by simp)
    · rw [update_of_ne (Ne.symm hp4)]
      exact h.sender

/-- `sys_proc` gets a message. -/
theorem deliver_proc {m : Msg B} (h : Dialogue st pr t) (hserv : Serving env .atomic st pr n)
    (hp : st p = .sendCall GPID_PROCESS m ∨ st p = .waitSend GPID_PROCESS m)
    (h1 : st GPID_PROCESS = .waitRecv ∨ st GPID_PROCESS = .recvCall) :
    Dialogue (update (update st p (.sent GPID_PROCESS m true)) GPID_PROCESS
      (.got p m)) pr t := by
  obtain ⟨hpne, -, -, -⟩ := hserv.of_sending hp
  obtain ⟨-, hlive1, -⟩ := hserv.of_receiving h1
  have hagree := h.agree
  rw [owes_recv hserv h1] at hagree
  -- a request of the shell
  have hshell : p = GPID_SHELL → (∃ cmd, pr.act p = .command cmd) ∨ pr.act p = .killall →
      t = .idle ∧ pr.act GPID_PROCESS = .serve := by
    rintro rfl ha
    refine ⟨pending_eq_nothing ?_, ?_⟩
    · rw [← hagree]
      rcases ha with ⟨cmd, ha⟩ | ha <;> rw [ha] <;> rcases hp with hp | hp <;> rw [hp] <;> rfl
    · rcases proc_recv hserv h1 with ha' | ⟨k, ha'⟩
      · exact ha'
      · exact absurd (hserv.le_three ha' hpne) (by decide)
  -- the message of another process does not concern the shell
  have hother : p ≠ GPID_SHELL → (∀ cmd, m.body ≠ .spawn cmd) →
      shellWaits (update st p (.sent GPID_PROCESS m true) GPID_SHELL) (pr.act GPID_SHELL) =
        procOwes (.got p m) (pr.act GPID_PROCESS) t := by
    intro hp4 hbody
    rw [update_of_ne (Ne.symm hp4), hagree]
    obtain ⟨body, tag⟩ := m
    rcases proc_recv hserv h1 with ha | ⟨k, ha⟩ <;> rw [ha]
    · cases body with
      | spawn cmd => exact absurd rfl (hbody cmd)
      | _ => rfl
    · rfl
  have hsends := sends_of_stage hserv hp
  cases hap : pr.act p with
  | command cmd =>
      rw [hap] at hsends
      cases hsends with
      | command hp4 _ hm =>
          obtain ⟨ht, hserve⟩ := hshell hp4 (Or.inl ⟨cmd, hap⟩)
          refine h.receive_proc hserv hp h1 (by rw [hm]; exact ht) ?_
          obtain ⟨body, tag⟩ := m
          obtain rfl : body = .spawn cmd := hm
          rw [hserve, ← hp4, update_self, hap]
          rfl
  | killall =>
      rw [hap] at hsends
      cases hsends with
      | killall hp4 _ hm =>
          obtain ⟨ht, hserve⟩ := hshell hp4 (Or.inr hap)
          refine h.receive_proc hserv hp h1 (by rw [hm]; exact ht) ?_
          obtain ⟨body, tag⟩ := m
          obtain rfl : body = .killall := hm
          rw [hserve, ← hp4, update_self, hap, ht]
          rfl
  | exit =>
      rw [hap] at hsends
      cases hsends with
      | exit hp5 _ hm =>
          have hp4 : p ≠ GPID_SHELL := by
            rintro rfl
            exact absurd hp5 (by decide)
          refine h.receive_proc hserv hp h1 ?_ (hother hp4 (by rw [hm]; simp))
          rw [hm]
          refine ⟨hp5, ?_⟩
          rw [update_self]
          simp [Exists]
  | notify =>
      rw [hap] at hsends
      cases hsends with
      | notify hp23 _ hm =>
          have hp4 : p ≠ GPID_SHELL := by
            rintro rfl
            exact absurd hp23 (by decide)
          refine h.receive_proc hserv hp h1 ?_ (hother hp4 (by rw [hm]; simp))
          rw [hm]
          trivial
  | reply c m' =>
      have hsends' := hsends
      rw [hap] at hsends'
      cases hsends' with
      | server => exact absurd hap (no_reply hserv hp hlive1)
  | spawned =>
      rw [hap] at hsends
      cases hsends with
      | reply _ hq => exact absurd hq (by decide)
  | exited =>
      rw [hap] at hsends
      cases hsends with
      | exited _ hq => exact absurd hq (by decide)
  | _ =>
      rw [hap] at hsends
      cases hsends

/-- A step of a process other than these two. -/
theorem elsewhere (h : Dialogue st pr t) (hp1 : p ≠ GPID_PROCESS) (hp4 : p ≠ GPID_SHELL)
    (hlive : st p ≠ .dead) (hx : Exists x) (hact : ∀ q, q ≠ p → pr'.act q = pr.act q)
    (hpid : pr'.appPid = pr.appPid) (hwait : pr'.shellWaiting = pr.shellWaiting)
    (hok : pr'.spawnOk = pr.spawnOk) (he : pr'.events = pr.events) :
    Dialogue (update st p x) pr' t :=
  h.other (Same.update hlive hx hpid hwait hok) (update_of_ne hp1.symm _ _)
    (update_of_ne hp4.symm _ _) (hact _ hp1.symm) (hact _ hp4.symm) he

/-- A trap in which no message changes hands. -/
theorem trap_block {q : ℤ} {m : Msg B} (h : Dialogue st pr t) (hserv : Serving env .atomic st pr n)
    (hp : st p = .sendCall q m) : Dialogue (update st p (.waitSend q m)) pr t := by
  have hlive : st p ≠ .dead := by rw [hp]; simp
  have hsends := sends_of_stage hserv (Or.inl hp)
  have hs : Same st pr (update st p (.waitSend q m)) pr :=
    Same.update hlive (by simp [Exists]) rfl rfl rfl
  by_cases hp1 : p = GPID_PROCESS
  · subst hp1
    have hfits := h.fits.same hs
    refine h.proc rfl rfl h.events ?_ (by simp) ?_
    · rw [hp] at hfits
      generalize pr.act GPID_PROCESS = b at hsends hfits ⊢
      obtain ⟨-, ⟨cmd, ok, rfl, -⟩ | rfl⟩ := hsends.of_process
      · exact ⟨fun he => absurd he (by simp), fun _ => hfits.2 (by simp)⟩
      · exact ⟨fun he => absurd he (by simp), fun _ => hfits.2 (by simp)⟩
    · rw [hp]
      generalize pr.act GPID_PROCESS = b at hsends ⊢
      obtain ⟨-, ⟨cmd, ok, rfl, -⟩ | rfl⟩ := hsends.of_process
      · rfl
      · rfl
  by_cases hp4 : p = GPID_SHELL
  · subst hp4
    refine h.shell hs rfl rfl rfl ?_ (by simp)
    rw [hp]
    generalize pr.act GPID_SHELL = b at hsends ⊢
    obtain ⟨cmd, rfl⟩ | rfl := hsends.of_shell
    · rfl
    · rfl
  · exact h.elsewhere hp1 hp4 hlive (by simp [Exists]) (fun _ _ => rfl) rfl rfl rfl rfl

theorem trap_wait {q : ℤ} (h : Dialogue st pr t) (hserv : Serving env .atomic st pr n)
    (hq : st q = .recvCall) : Dialogue (update st q .waitRecv) pr t := by
  have hlive : st q ≠ .dead := by rw [hq]; simp
  have hs : Same st pr (update st q .waitRecv) pr :=
    Same.update hlive (by simp [Exists]) rfl rfl rfl
  by_cases hq1 : q = GPID_PROCESS
  · subst hq1
    have hfits := h.fits.same hs
    refine h.proc rfl rfl h.events ?_ (by simp) ?_
    · rcases proc_recv hserv (Or.inr hq) with ha | ⟨k, ha⟩ <;> rw [ha] at hfits ⊢
      · exact ⟨hfits.1, fun s m hg => absurd hg (by simp)⟩
      · exact hfits
    · rw [hq]
      rcases proc_recv hserv (Or.inr hq) with ha | ⟨k, ha⟩ <;> rw [ha] <;> rfl
  by_cases hq4 : q = GPID_SHELL
  · subst hq4
    refine h.shell hs rfl rfl rfl ?_ (by simp)
    rw [hq]
    rcases shell_recv hserv (Or.inr hq) with ⟨cmd, ha⟩ | ha <;> rw [ha] <;> rfl
  · exact h.elsewhere hq1 hq4 hlive (by simp [Exists]) (fun _ _ => rfl) rfl rfl rfl rfl

theorem proc_born (hserv : Serving env .atomic st pr n) : st GPID_PROCESS ≠ .unborn := by
  intro hu
  have hn : 1 ≤ n := by
    have hboot := hserv.boot
    generalize pr.act GPID_PROCESS = b at hboot
    cases b with
    | sysAlloc | sysReady | sysWait =>
        have := hboot.1
        omega
    | _ =>
        have : 4 ≤ n := hboot
        omega
  rcases (hserv.born GPID_PROCESS).1 hu with h0 | hlt
  · exact absurd h0 (by decide)
  · have : (n : ℤ) < 1 := hlt
    omega

theorem shell_born (hserv : Serving env .atomic st pr n) (hn : 4 ≤ n) :
    st GPID_SHELL ≠ .unborn := by
  intro hu
  rcases (hserv.born GPID_SHELL).1 hu with h0 | hlt
  · exact absurd h0 (by decide)
  · have : (n : ℤ) < 4 := hlt
    omega

/-- Only a server sends to a process that does not exist. -/
theorem trap_fail {q : ℤ} {m : Msg B} (h : Dialogue st pr t) (hserv : Serving env .atomic st pr n)
    (hp : st p = .sendCall q m) (hq : st q = .dead ∨ st q = .unborn) :
    Dialogue (update st p (.sent q m false)) pr t := by
  have hsends := sends_of_stage hserv (Or.inl hp)
  have hboot := hserv.boot
  cases hap : pr.act p with
  | spawned =>
      rw [hap] at hsends
      cases hsends with
      | reply hp1 hq4 =>
          subst hp1 hq4
          rw [hap] at hboot
          exact (hq.elim h.live.2 (shell_born hserv hboot)).elim
  | exited =>
      rw [hap] at hsends
      cases hsends with
      | exited hp1 hq4 =>
          subst hp1 hq4
          rw [hap] at hboot
          exact (hq.elim h.live.2 (shell_born hserv hboot)).elim
  | reply =>
      rw [hap] at hsends
      cases hsends with
      | server hp23 =>
          refine h.elsewhere ?_ ?_ (by rw [hp]; simp) (by simp [Exists]) (fun _ _ => rfl)
            rfl rfl rfl rfl
          · rintro rfl
            exact absurd hp23 (by decide)
          · rintro rfl
            exact absurd hp23 (by decide)
  | command | killall | exit | notify =>
      rw [hap] at hsends
      have hq1 : q = GPID_PROCESS := by
        cases hsends
        assumption
      subst hq1
      exact (hq.elim h.live.1 (proc_born hserv)).elim
  | _ =>
      rw [hap] at hsends
      cases hsends

/-- A message changes hands. -/
theorem deliver {q : ℤ} {m : Msg B} (h : Dialogue st pr t) (hserv : Serving env .atomic st pr n)
    (hp : st p = .sendCall q m ∨ st p = .waitSend q m) (hq : st q = .waitRecv ∨ st q = .recvCall) :
    Dialogue (update (update st p (.sent q m true)) q (.got p m)) pr t := by
  have hsends := sends_of_stage hserv hp
  obtain ⟨-, hlive, -⟩ := hserv.of_receiving hq
  cases hap : pr.act p with
  | spawned =>
      rw [hap] at hsends
      cases hsends with
      | reply hp1 hq4 =>
          subst hp1 hq4
          exact h.deliver_shell hserv hp hq
  | exited =>
      rw [hap] at hsends
      cases hsends with
      | exited hp1 hq4 =>
          subst hp1 hq4
          exact h.deliver_shell hserv hp hq
  | reply =>
      have hsends' := hsends
      rw [hap] at hsends'
      cases hsends' with
      | server => exact absurd hap (no_reply hserv hp hlive)
  | command | killall | exit | notify =>
      rw [hap] at hsends
      have hq1 : q = GPID_PROCESS := by
        cases hsends
        assumption
      subst hq1
      exact h.deliver_proc hserv hp hq
  | _ =>
      rw [hap] at hsends
      cases hsends

theorem trap {e : Ev ℤ (Msg B)} (h : Dialogue st pr t) (hserv : Serving env .atomic st pr n)
    (hs : Step st e st') (hfair : Serving.Fair pr e) : Dialogue st' pr t := by
  cases hs with
  | fail hp hq => exact h.trap_fail hserv hp hq
  | give hp hq => exact h.deliver hserv (Or.inl hp) (Or.inl hq)
  | take hq hp => exact h.deliver hserv (Or.inr hp) (Or.inr hq)
  | block hp _ => exact h.trap_block hserv hp
  | wait hq _ => exact h.trap_wait hserv hq
  | sysSend | sysRecv | retSend | retRecv | spawn | ready | kill => exact hfair.elim

/-! ### Steps of the programs -/

/-- `sys_proc` calls `sys_send` for the shell. -/
theorem send_proc {m : Msg B} (h : Dialogue st pr t) (hserv : Serving env .atomic st pr n)
    (hp : st GPID_PROCESS = .user) (hop : pr.op GPID_PROCESS .atomic = .send GPID_SHELL m) :
    ∃ t', Dialogue (update st GPID_PROCESS (.sendCall GPID_SHELL m)) (pr.note GPID_PROCESS)
      t' := by
  have hsends := sends (hserv.loc GPID_PROCESS (proc_born hserv)).fits hop
  have hfits := h.fits
  have hs : Same st pr (update st GPID_PROCESS (.sendCall GPID_SHELL m)) pr :=
    Same.update h.live.1 (by simp [Exists]) rfl rfl rfl
  cases ha : pr.act GPID_PROCESS with
  | spawned cmd ok =>
      rw [ha] at hfits
      have hnote : pr.note GPID_PROCESS =
          { pr with
            shellWaiting := cmd.foreground
            spawnOk := ok
            events := pr.events ++ [.tell ok] } := by
        rw [Progs.note, ha]
      rw [hnote]
      cases ok with
      | false =>
          -- the command failed
          have ht : t = .asked cmd := hfits.1 hp
          subst ht
          refine ⟨.idle, h.proc ha rfl (Talk.run_append h.events rfl) ?_ (by simp) ?_⟩
          · exact ⟨fun he => absurd he (by simp), fun _ => ⟨fun _ hok => absurd hok (by simp), rfl⟩⟩
          · rw [ha, hp]
            rfl
      | true =>
          obtain ⟨pid, rfl, hpid, hpidlive⟩ := hfits.1 hp
          cases hfg : cmd.foreground with
          | false =>
              refine ⟨.idle, h.proc ha rfl (Talk.run_append h.events ?_) ?_ (by simp) ?_⟩
              · simp [Talk.next, hfg]
              · exact ⟨fun he => absurd he (by simp),
                  fun _ => ⟨fun hw => absurd hw (by simp), by rw [hfg]; rfl⟩⟩
              · rw [ha, hp]
                rfl
          | true =>
              refine ⟨.running pid, h.proc ha rfl (Talk.run_append h.events ?_) ?_ (by simp) ?_⟩
              · simp [Talk.next, hfg]
              · exact ⟨fun he => absurd he (by simp),
                  fun _ => ⟨⟨hpid, rfl, hs.exists hpidlive⟩, by rw [hfg]; rfl⟩⟩
              · rw [ha, hp]
                rfl
  | exited =>
      rw [ha] at hfits
      have hnote : pr.note GPID_PROCESS = { pr with events := pr.events ++ [.tell false] } := by
        rw [Progs.note, ha]
      rw [hnote]
      obtain ⟨pid, rfl, hpid, hdead⟩ := hfits.1 hp
      refine ⟨.idle, h.proc ha rfl (Talk.run_append h.events rfl) ?_ (by simp) ?_⟩
      · refine ⟨fun he => absurd he (by simp), fun _ => ⟨fun _ _ => ?_, rfl⟩⟩
        change update st GPID_PROCESS (.sendCall GPID_SHELL m) pr.appPid = .dead
        rw [hpid]
        exact (hs.dead pid).2 hdead
      · rw [ha, hp]
        rfl
  | command | killall =>
      rw [ha] at hsends
      cases hsends with
      | _ hp1 => exact absurd hp1 (by decide)
  | exit | notify | reply =>
      rw [ha] at hsends
      cases hsends with
      | _ hp1 => exact absurd hp1 (by decide)
  | _ =>
      rw [ha] at hsends
      cases hsends

/-- A process calls `sys_send`. -/
theorem send {q : ℤ} {m : Msg B} (h : Dialogue st pr t) (hserv : Serving env .atomic st pr n)
    (hp : st p = .user) (hop : pr.op p .atomic = .send q m) :
    ∃ t', Dialogue (update st p (.sendCall q m)) (pr.note p) t' := by
  have hne : st p ≠ .unborn := by rw [hp]; simp
  have hlive : st p ≠ .dead := by rw [hp]; simp
  have hsends := sends (hserv.loc p hne).fits hop
  by_cases hp1 : p = GPID_PROCESS
  · subst hp1
    obtain ⟨rfl, -⟩ := hsends.of_process
    exact h.send_proc hserv hp hop
  have hnote : pr.note p = pr := by
    rw [Progs.note]
    generalize pr.act p = b at hsends
    cases hsends with
    | reply hp | exited hp => exact absurd hp hp1
    | _ => rfl
  rw [hnote]
  by_cases hp4 : p = GPID_SHELL
  · subst hp4
    refine ⟨t, h.shell (Same.update hlive (by simp [Exists]) rfl rfl rfl) rfl rfl rfl ?_ (by simp)⟩
    rw [hp]
    generalize pr.act GPID_SHELL = b at hsends
    obtain ⟨cmd, rfl⟩ | rfl := hsends.of_shell
    · rfl
    · rfl
  · exact ⟨t, h.elsewhere hp1 hp4 hlive (by simp [Exists]) (fun _ _ => rfl) rfl rfl rfl rfl⟩

/-- A process calls `sys_recv`. -/
theorem recv (h : Dialogue st pr t) (hserv : Serving env .atomic st pr n) (hp : st p = .user)
    (hop : pr.op p .atomic = .recv) : Dialogue (update st p .recvCall) pr t := by
  have hlive : st p ≠ .dead := by rw [hp]; simp
  have hs : Same st pr (update st p .recvCall) pr :=
    Same.update hlive (by simp [Exists]) rfl rfl rfl
  have hserv' := hserv.recv hp hop
  by_cases hp1 : p = GPID_PROCESS
  · subst hp1
    have hrecv := proc_recv hserv' (Or.inr (update_self _ _ _))
    have hfits := h.fits.same hs
    refine h.proc rfl rfl h.events ?_ (by simp) ?_
    · rcases hrecv with ha | ⟨k, ha⟩ <;> rw [ha] at hfits ⊢
      · exact ⟨hfits.1, fun s m hg => absurd hg (by simp)⟩
      · exact hfits
    · rw [hp]
      rcases hrecv with ha | ⟨k, ha⟩ <;> rw [ha] <;> rfl
  by_cases hp4 : p = GPID_SHELL
  · subst hp4
    have hrecv := shell_recv hserv' (Or.inr (update_self _ _ _))
    refine h.shell hs rfl rfl rfl ?_ (by simp)
    rw [hp]
    rcases hrecv with ⟨cmd, ha⟩ | ha <;> rw [ha] <;> rfl
  · exact h.elsewhere hp1 hp4 hlive (by simp [Exists]) (fun _ _ => rfl) rfl rfl rfl rfl

/-- A call of `dir_lookup` or `file_read` is answered. -/
theorem answer (h : Dialogue st pr t) (hserv : Serving env .atomic st pr n) (hp : st p = .user)
    (hop : pr.op p .atomic = .answer) : Dialogue st (pr.answered env p) t := by
  have hne : st p ≠ .unborn := by rw [hp]; simp
  have hst : update st p .user = st := by rw [← hp, update_eq_self]
  rw [Progs.op] at hop
  cases ha : pr.act p with
  | call r k =>
      have hfit := (hserv.loc p hne).fits
      rw [ha] at hfit
      have hans : pr.answered env p = pr.completed p (Act.resume env k (env.answer r)) := by
        simp [Progs.answered, ha]
      rw [hans, ← hst]
      have hact : ∀ q, q ≠ p →
          (pr.completed p (Act.resume env k (env.answer r))).act q = pr.act q :=
        fun q hq => pr.setAct_of_ne p hq _
      by_cases hp1 : p = GPID_PROCESS
      · subst hp1
        have hfits := h.fits
        rw [ha, hp] at hfits
        have hs : Same st pr st (pr.completed GPID_PROCESS (Act.resume env k (env.answer r))) :=
          ⟨fun _ => Iff.rfl, fun _ => id, rfl, rfl, rfl⟩
        have hact1 : (pr.completed GPID_PROCESS (Act.resume env k (env.answer r))).act
            GPID_PROCESS = Act.resume env k (env.answer r) :=
          pr.setAct_self GPID_PROCESS (Act.resume env k (env.answer r))
        refine h.proc hact1 (hact _ (by decide)) h.events ?_ (by simp) ?_
        · rw [hst]
          refine ProcFits.same hs ?_
          cases k with
          | user => exact absurd (show (1 : ℤ) ≥ 5 from hfit) (by decide)
          | lookup => exact absurd (show (1 : ℤ) = 3 from hfit.1) (by decide)
          | bin cmd =>
              obtain ⟨-, ino, name, rfl⟩ := hfit
              exact hfits
          | app cmd =>
              obtain ⟨-, ino, name, rfl⟩ := hfit
              simp only [Act.resume, Env.answer]
              split_ifs
              · exact ⟨fun _ => hfits, fun hx => absurd rfl hx⟩
              · exact hfits
              · exact ⟨fun _ => hfits, fun hx => absurd rfl hx⟩
              · exact hfits
          | load cmd pid ino blocks =>
              obtain ⟨-, ino', offset, rfl⟩ := hfit
              simp only [Act.resume, Env.answer, Act.loadNext]
              split
              · exact hfits
              · exact hfits
              · trivial
        · rw [ha, hp, owes_user, owes_user]
      · have hp4 : p ≠ GPID_SHELL := (Serving.call_fits hfit).2.1
        exact h.elsewhere hp1 hp4 (by rw [hp]; simp) (by simp [Exists]) hact rfl rfl rfl rfl
  | _ =>
      rw [ha] at hop
      simp [Act.op] at hop

/-- A process is created, which may be the shell itself, and `sys_proc` goes on. -/
theorem spawn (h : Dialogue st pr t) (h1 : st GPID_PROCESS = .user)
    (hnew : st ((n : ℤ) + 1) = .unborn)
    (hact : pr'.act = update (update pr.act ((n : ℤ) + 1)
      (.start ((n : ℤ) + 1))) GPID_PROCESS a) (he : Talk.run pr'.events = some t')
    (hfits : ProcFits (update st ((n : ℤ) + 1) .loading) pr' t' .user a)
    (hpend : t'.pending = t.pending) :
    Dialogue (update st ((n : ℤ) + 1) .loading) pr' t' := by
  have hne1 : GPID_PROCESS ≠ (n : ℤ) + 1 := by
    intro he
    rw [← he, h1] at hnew
    simp at hnew
  have hne41 : GPID_SHELL ≠ GPID_PROCESS := by decide
  have hst1 : update st ((n : ℤ) + 1) .loading GPID_PROCESS = .user := by
    rw [update_of_ne hne1, h1]
  have hs : Same st pr (update st ((n : ℤ) + 1) .loading) pr :=
    Same.update (by rw [hnew]; simp) (by simp [Exists]) rfl rfl rfl
  have hagree := h.agree
  rw [h1, owes_user] at hagree
  refine ⟨he, ?_, ?_, fun s m hg => ?_, hs.live h.live⟩
  · rw [hst1, hact, update_self]
    exact hfits
  · rw [hst1, owes_user, hpend, ← hagree, hact, update_of_ne hne41]
    by_cases h4 : GPID_SHELL = (n : ℤ) + 1
    · rw [← h4] at hnew ⊢
      rw [update_self, update_self, hnew]
      cases pr.act GPID_SHELL <;> rfl
    · rw [update_of_ne h4, update_of_ne h4]
  · by_cases h4 : GPID_SHELL = (n : ℤ) + 1
    · rw [← h4, update_self] at hg
      simp at hg
    · rw [update_of_ne h4] at hg
      exact h.sender s m hg

/-- `sys_proc` has created a process. -/
theorem alloc (h : Dialogue st pr t) (h1 : st GPID_PROCESS = .user)
    (hop : pr.op GPID_PROCESS .atomic = .alloc) (hnew : st ((n : ℤ) + 1) = .unborn) :
    ∃ t', Dialogue (update st ((n : ℤ) + 1) .loading)
      (pr.allocated env GPID_PROCESS ((n : ℤ) + 1)) t' := by
  have hs : Same st pr (update st ((n : ℤ) + 1) .loading) pr :=
    Same.update (by rw [hnew]; simp) (by simp [Exists]) rfl rfl rfl
  have hfits := h.fits
  rw [Progs.op] at hop
  cases ha : pr.act GPID_PROCESS with
  | sysAlloc k =>
      rw [ha] at hfits
      simp only [Progs.allocated, ha]
      refine ⟨t, h.spawn h1 hnew rfl h.events ?_ rfl⟩
      exact Rest.same ⟨hs.dead, hs.born, rfl, rfl, rfl⟩ hfits
  | appAlloc cmd ino =>
      rw [ha] at hfits
      have ht : t = .asked cmd := hfits
      subst ht
      simp only [Progs.allocated, ha]
      refine ⟨.spawned cmd ((n : ℤ) + 1),
        h.spawn h1 hnew rfl (Talk.run_append h.events rfl) ?_ rfl⟩
      have hsp : Exists (update st ((n : ℤ) + 1) (.loading : Stage ℤ (Msg B))
          ((n : ℤ) + 1)) := by
        rw [update_self]
        simp [Exists]
      rw [Act.loadNext]
      split
      · exact ⟨rfl, rfl, hsp⟩
      · exact ⟨rfl, rfl, hsp⟩
      · trivial
  | _ =>
      rw [ha] at hop
      simp [Act.op] at hop

/-- A loaded process may run. -/
theorem ready {pid : ℤ} (h : Dialogue st pr t) (hserv : Serving env .atomic st pr n)
    (h1 : st GPID_PROCESS = .user) (hop : pr.op GPID_PROCESS .atomic = .ready pid)
    (hpid : st pid = .loading) :
    Dialogue (update st pid .user) (pr.readied GPID_PROCESS) t := by
  have hne1 : GPID_PROCESS ≠ pid := by
    rintro rfl
    rw [h1] at hpid
    simp at hpid
  have hlive : st pid ≠ .dead := by rw [hpid]; simp
  have hs : Same st pr (update st pid .user) pr :=
    Same.update hlive (by simp [Exists]) rfl rfl rfl
  -- the shell itself may be this process
  have hk : Dialogue (update st pid .user) pr t := by
    by_cases h4 : pid = GPID_SHELL
    · subst h4
      refine h.shell hs rfl rfl rfl ?_ (by simp)
      have hstart := (hserv.loc GPID_SHELL (by rw [hpid]; simp)).stage
      rw [hpid] at hstart
      have hact : pr.act GPID_SHELL = .start GPID_SHELL := hstart
      rw [hact, hpid]
      rfl
    · exact h.elsewhere hne1.symm h4 hlive (by simp [Exists]) (fun _ _ => rfl) rfl rfl rfl rfl
  have hst1 : update st pid .user GPID_PROCESS = .user := by
    rw [update_of_ne hne1, h1]
  generalize update st pid .user = st' at hk hst1
  have hupd : update st' GPID_PROCESS .user = st' := by
    rw [← hst1, update_eq_self]
  have hfits := hk.fits
  rw [hst1] at hfits
  rw [Progs.op] at hop
  have hact4 : ∀ b : Act B, (pr.setAct GPID_PROCESS b).act GPID_SHELL = pr.act GPID_SHELL :=
    pr.setAct_of_ne GPID_PROCESS (by decide)
  have hact1 := pr.setAct_self GPID_PROCESS
  have hs' : ∀ b : Act B, Same st' pr st' (pr.setAct GPID_PROCESS b) := fun b =>
    ⟨fun _ => Iff.rfl, fun _ => id, rfl, rfl, rfl⟩
  rw [← hupd]
  cases ha : pr.act GPID_PROCESS with
  | sysReady k pid' =>
      rw [ha] at hfits
      simp only [Progs.readied, ha]
      refine hk.proc (hact1 _) (hact4 _) hk.events ?_ (by simp) ?_
      · rw [hupd]
        refine ProcFits.same (hs' _) ?_
        split
        · exact hfits
        · exact ⟨hfits, fun s m hg => absurd hg (by simp)⟩
      · rw [hst1, owes_user, owes_user]
  | appReady cmd pid' =>
      rw [ha] at hfits
      simp only [Progs.readied, ha]
      refine hk.proc (hact1 _) (hact4 _) hk.events ?_ (by simp) ?_
      · rw [hupd]
        refine ProcFits.same (hs' _) ?_
        exact ⟨fun _ => ⟨pid', hfits⟩, fun hx => absurd rfl hx⟩
      · rw [hst1, owes_user, owes_user]
  | _ =>
      rw [ha] at hop
      simp [Act.op] at hop

/-- `sys_send` returns. -/
theorem retSend {q : ℤ} {m : Msg B} {ok : Bool} (h : Dialogue st pr t)
    (hserv : Serving env .atomic st pr n) (hp : st p = .sent q m ok) :
    Dialogue (update st p .user) (pr.setAct p (pr.act p).afterSend) t := by
  have hlive : st p ≠ .dead := by rw [hp]; simp
  have hloc := hserv.loc p (by rw [hp]; simp)
  have hop := hloc.stage
  rw [hp] at hop
  have hsends := sends hloc.fits hop
  have hact : ∀ r, r ≠ p → (pr.setAct p (pr.act p).afterSend).act r = pr.act r :=
    fun r hr => pr.setAct_of_ne p hr _
  have hactp := pr.setAct_self p (pr.act p).afterSend
  have hs : Same st pr (update st p .user) (pr.setAct p (pr.act p).afterSend) :=
    Same.update hlive (by simp [Exists]) rfl rfl rfl
  by_cases hp1 : p = GPID_PROCESS
  · subst hp1
    have hfits := h.fits.same hs
    rw [hp] at hfits
    refine h.proc hactp (hact _ (by decide)) h.events ?_ (by simp) ?_
    · generalize pr.act GPID_PROCESS = b at hsends hfits ⊢
      obtain ⟨-, ⟨cmd, ok, rfl, -⟩ | rfl⟩ := hsends.of_process
      · exact ⟨(hfits.2 (by simp)).1, fun s m hg => absurd hg (by simp)⟩
      · exact ⟨(hfits.2 (by simp)).1, fun s m hg => absurd hg (by simp)⟩
    · rw [owes_user, hp]
      generalize pr.act GPID_PROCESS = b at hsends
      obtain ⟨-, ⟨cmd, ok, rfl, -⟩ | rfl⟩ := hsends.of_process
      · rfl
      · rfl
  by_cases hp4 : p = GPID_SHELL
  · subst hp4
    refine h.shell hs (hact _ (by decide)) hactp rfl ?_ (by simp)
    rw [hp]
    generalize pr.act GPID_SHELL = b at hsends
    obtain ⟨cmd, rfl⟩ | rfl := hsends.of_shell
    · rfl
    · rfl
  · exact h.elsewhere hp1 hp4 hlive (by simp [Exists]) hact rfl rfl rfl rfl

/-- A decision is made. -/
theorem choose {c : Choice} (h : Dialogue st pr t) (hserv : Serving env .atomic st pr n)
    (hp : st p = .user) (hc : (pr.act p).choose c = some a) : Dialogue st (pr.setAct p a) t := by
  have hlive : st p ≠ .dead := by rw [hp]; simp
  have hfit := (hserv.loc p (by rw [hp]; simp)).fits
  have hst : update st p .user = st := by rw [← hp, update_eq_self]
  have hact : ∀ r, r ≠ p → (pr.setAct p a).act r = pr.act r :=
    fun r hr => pr.setAct_of_ne p hr a
  have hp1 : p ≠ GPID_PROCESS := by
    rintro rfl
    rcases Act.choose_cases hc with ha | ha <;> rw [ha] at hfit
    · exact absurd (show (1 : ℤ) ≥ 5 from hfit) (by decide)
    · exact absurd (show (1 : ℤ) = 4 from hfit) (by decide)
  rw [← hst]
  by_cases hp4 : p = GPID_SHELL
  · subst hp4
    have hs : Same st pr (update st GPID_SHELL .user) (pr.setAct GPID_SHELL a) :=
      Same.update hlive (by simp [Exists]) rfl rfl rfl
    refine h.shell hs (hact _ (by decide)) (pr.setAct_self GPID_SHELL a) rfl ?_ (by simp)
    rw [hp]
    generalize pr.act GPID_SHELL = b at hc hfit
    cases b <;> cases c <;> simp only [Act.choose, Option.some.injEq, reduceCtorEq] at hc <;>
      subst hc
    · exact absurd (show (4 : ℤ) ≥ 5 from hfit) (by decide)
    · exact absurd (show (4 : ℤ) ≥ 5 from hfit) (by decide)
    · rfl
    · rfl
  · exact h.elsewhere hp1 hp4 hlive (by simp [Exists]) hact rfl rfl rfl rfl

/-- The shell receives. -/
theorem retRecv_shell {s : ℤ} {m : Msg B} (h : Dialogue st pr t)
    (hserv : Serving env .atomic st pr n) (hp : st GPID_SHELL = .got s m) :
    Dialogue (update st GPID_SHELL .user) (pr.received env GPID_SHELL s m) t := by
  have hne : st GPID_SHELL ≠ .unborn := by rw [hp]; simp
  have hop := (hserv.loc GPID_SHELL hne).stage
  rw [hp] at hop
  have hshell := hserv.shell_recv hne hop
  have hrec : pr.received env GPID_SHELL s m =
      pr.setAct GPID_SHELL ((pr.act GPID_SHELL).afterRecv env GPID_SHELL s m) := by
    rw [Progs.received]
    rcases hshell with ⟨cmd, ha⟩ | ha <;> rw [ha]
  have hs : Same st pr (update st GPID_SHELL .user) (pr.received env GPID_SHELL s m) := by
    rw [hrec]
    exact Same.update (by rw [hp]; simp) (by simp [Exists]) rfl rfl rfl
  rw [hrec] at hs ⊢
  refine h.shell hs (pr.setAct_of_ne GPID_SHELL (by decide) _) (pr.setAct_self GPID_SHELL _) rfl ?_
    (by simp)
  rw [hp]
  rcases hshell with ⟨cmd, ha⟩ | ha <;> rw [ha]
  · obtain ⟨body, tag⟩ := m
    cases body with
    | procReply ok =>
        cases ok with
        | true =>
            change shellWaits (B := B) .user (if cmd.foreground then .awaitExit else .prompt) =
              if cmd.foreground then .exit else .nothing
            cases cmd.foreground <;> rfl
        | false => rfl
    | _ => rfl
  · rfl

/-- `sys_proc` receives. -/
theorem retRecv_proc {s : ℤ} {m : Msg B} (h : Dialogue st pr t)
    (hserv : Serving env .atomic st pr n) (hp : st GPID_PROCESS = .got s m) :
    ∃ t', Dialogue (update st GPID_PROCESS .user)
      (pr.received env GPID_PROCESS s m) t' := by
  have hloc := hserv.loc GPID_PROCESS (by rw [hp]; simp)
  have hop := hloc.stage
  rw [hp] at hop
  have hs : Same st pr (update st GPID_PROCESS .user) pr :=
    Same.update h.live.1 (by simp [Exists]) rfl rfl rfl
  have hfits := h.fits.same hs
  rw [hp] at hfits
  have ha4 : ∀ b : Act B, (pr.setAct GPID_PROCESS b).act GPID_SHELL = pr.act GPID_SHELL :=
    pr.setAct_of_ne GPID_PROCESS (by decide)
  rcases Serving.recv_cases hloc.fits hop with ha | ⟨r, k, ha⟩ | ⟨k, ha, -⟩ | ⟨-, h4⟩
  · rw [ha] at hfits
    obtain ⟨hrest, hheard⟩ := hfits
    have hbody := hloc.proper s m hp ha
    have hheard' := hheard s m rfl
    obtain ⟨body, tag⟩ := m
    have hrec : pr.received env GPID_PROCESS s ⟨body, tag⟩ =
        { pr.setAct GPID_PROCESS (Act.handle env GPID_PROCESS s ⟨body, tag⟩) with
          events := pr.events ++ Progs.requests body } := by
      simp only [Progs.received, ha, Act.afterRecv, if_true]
    rw [hrec]
    cases body with
    | spawn cmd =>
        have ht : t = .idle := hheard'
        subst ht
        refine ⟨.asked cmd, h.proc (pr.setAct_self GPID_PROCESS
          (Act.handle env GPID_PROCESS s ⟨.spawn cmd, tag⟩))
          (ha4 (Act.handle env GPID_PROCESS s ⟨.spawn cmd, tag⟩))
          (Talk.run_append h.events rfl) rfl (by simp) ?_⟩
        rw [hp, ha]
        rfl
    | killall =>
        have ht : t = .idle := hheard'
        subst ht
        refine ⟨.idle, h.proc (pr.setAct_self GPID_PROCESS (.procFree (-1)))
          (ha4 (.procFree (-1))) (Talk.run_append h.events rfl) ⟨hrest, Or.inl ⟨rfl, rfl⟩⟩
          (by simp) ?_⟩
        rw [hp, ha]
        rfl
    | exit =>
        refine ⟨t, h.proc (pr.setAct_self GPID_PROCESS (.procFree s)) (ha4 (.procFree s)) ?_
          ⟨?_, Or.inr hheard'⟩ (by simp) ?_⟩
        · simp only [Progs.requests, List.append_nil]
          exact h.events
        · exact Rest.same ⟨fun _ => Iff.rfl, fun _ => id, rfl, rfl, rfl⟩ hrest
        · rw [hp, ha]
          rfl
    | request r =>
        have hr : (1 : ℤ) = r.server := hbody
        rcases Serving.server_eq r with h2 | h3 <;> omega
    | finish | procReply | fileReply | dirReply => exact hbody.elim
  · exact absurd ha (hloc.atomic rfl r k)
  · rw [ha] at hfits
    have hrec : pr.received env GPID_PROCESS s m = pr.setAct GPID_PROCESS (.sysAlloc (k + 1)) := by
      simp only [Progs.received, ha, Act.afterRecv]
    rw [hrec]
    refine ⟨t, h.proc (pr.setAct_self GPID_PROCESS _) (ha4 _) h.events ?_ (by simp) ?_⟩
    · exact Rest.same ⟨fun _ => Iff.rfl, fun _ => id, rfl, rfl, rfl⟩ hfits
    · rw [hp, ha]
      rfl
  · exact absurd h4 (by decide)

/-- `sys_recv` returns. -/
theorem retRecv {s : ℤ} {m : Msg B} (h : Dialogue st pr t) (hserv : Serving env .atomic st pr n)
    (hp : st p = .got s m) :
    ∃ t', Dialogue (update st p .user) (pr.received env p s m) t' := by
  by_cases hp1 : p = GPID_PROCESS
  · subst hp1
    exact h.retRecv_proc hserv hp
  by_cases hp4 : p = GPID_SHELL
  · subst hp4
    exact ⟨t, h.retRecv_shell hserv hp⟩
  refine ⟨t, h.elsewhere hp1 hp4 (by rw [hp]; simp) (by simp [Exists]) (fun q hq => ?_) ?_ ?_ ?_ ?_⟩
  · rw [Progs.received]
    split <;> exact pr.setAct_of_ne p hq _
  · rw [Progs.received]
    split <;> rfl
  · rw [Progs.received]
    split <;> rfl
  · rw [Progs.received]
    split <;> rfl
  · rw [Progs.received]
    split
    · rfl
    · simp only [if_neg hp1, List.append_nil]
    · rfl

/-- Processes are killed, and `sys_proc` goes on. -/
theorem kill {gone : ℤ → Bool} (h : Dialogue st pr t) (hp : st GPID_PROCESS = .user)
    (h1 : gone GPID_PROCESS = false) (h4 : gone GPID_SHELL = false)
    (ha1 : pr'.act GPID_PROCESS = a) (ha4 : pr'.act GPID_SHELL = pr.act GPID_SHELL)
    (he : Talk.run pr'.events = some t')
    (hfits : ProcFits (fun q => if gone q then .dead else st q) pr' t' .user a)
    (hpend : t'.pending = t.pending) :
    Dialogue (fun q => if gone q then .dead else st q) pr' t' := by
  have hst1 : (if gone GPID_PROCESS then .dead else st GPID_PROCESS : Stage ℤ (Msg B)) = .user := by
    rw [h1]
    exact hp
  have hst4 : (if gone GPID_SHELL then .dead else st GPID_SHELL : Stage ℤ (Msg B)) =
      st GPID_SHELL := by
    rw [h4]
    rfl
  have hagree := h.agree
  rw [hp, owes_user] at hagree
  refine ⟨he, ?_, ?_, ?_, ?_⟩
  · rw [hst1, ha1]
    exact hfits
  · rw [hst1, hst4, ha1, ha4, owes_user, hpend]
    exact hagree
  · rw [hst4]
    exact h.sender
  · rw [hst1, hst4]
    exact ⟨by simp, h.live.2⟩

/-- `sys_proc` frees processes.  It takes the end of a process for one that the shell waits for only
if this is so. -/
theorem free {pid : ℤ} (h : Dialogue st pr t) (hp : st GPID_PROCESS = .user)
    (hop : pr.op GPID_PROCESS .atomic = .free pid)
    (hord : ¬ (pid = pr.appPid ∧ pr.shellWaiting = true ∧ pr.spawnOk = false)) :
    ∃ t', Dialogue (fun q => if Sys.goneBy st pid q then .dead else st q)
      (pr.freed GPID_PROCESS pid) t' := by
  have ha : pr.act GPID_PROCESS = .procFree pid := by
    rw [Progs.op] at hop
    cases ha : pr.act GPID_PROCESS <;> rw [ha] at hop <;> simp [Act.op] at hop ⊢
    exact hop
  have hfits := h.fits
  rw [ha] at hfits
  obtain ⟨hrest, hpid⟩ := hfits
  have hkept : ∀ q, q < GPID_USER_START → Sys.goneBy st pid q = false := by
    intro q hq
    have hq5 : q < 5 := hq
    rcases hpid with ⟨rfl, -⟩ | ⟨hp5, -⟩
    · rw [Sys.goneBy, if_pos rfl, decide_eq_false (not_le.2 hq), Bool.false_and]
    · have hp5' : pid ≥ 5 := hp5
      rw [Sys.goneBy, if_neg (by omega), decide_eq_false (by omega), Bool.false_and]
  have hdead : ∀ q, st q = .dead →
      (if Sys.goneBy st pid q then .dead else st q : Stage ℤ (Msg B)) = .dead := by
    intro q hq
    split
    · rfl
    · exact hq
  -- what `sys_proc` does next
  have hnext : ∀ (b : Act B) (t' : Talk),
      (if pid ≠ -1 ∧ pr.shellWaiting = true ∧ pr.appPid = pid then .exited
        else .serve : Act B) = b →
      Talk.run (pr.events ++ if pid ≠ -1 then [.exit pid] else []) = some t' →
      ProcFits (fun q => if Sys.goneBy st pid q then .dead else st q) (pr.freed GPID_PROCESS pid) t'
        .user b → t'.pending = t.pending →
      ∃ t', Dialogue (fun q => if Sys.goneBy st pid q then .dead else st q)
        (pr.freed GPID_PROCESS pid) t' := by
    intro b t' hb he hfits hpend
    refine ⟨t', h.kill hp (hkept _ (by decide)) (hkept _ (by decide)) ?_ ?_ he hfits hpend⟩
    · rw [← hb]
      exact pr.setAct_self GPID_PROCESS _
    · rw [Progs.freed, hb]
      exact pr.setAct_of_ne GPID_PROCESS (show GPID_SHELL ≠ GPID_PROCESS by decide) b
  rcases hpid with ⟨rfl, rfl⟩ | ⟨hp5, hlive⟩
  · refine hnext .serve .idle (if_neg (by simp)) ?_ ⟨?_, fun s m hg => absurd hg (by simp)⟩ rfl
    · simpa using h.events
    · exact fun hw hok => hdead _ (hrest hw hok)
  have hne : pid ≠ -1 := by
    have : pid ≥ 5 := hp5
    omega
  cases t with
  | idle =>
      have hserve : ¬ (pid ≠ -1 ∧ pr.shellWaiting = true ∧ pr.appPid = pid) := by
        rintro ⟨-, hw, rfl⟩
        cases hok : pr.spawnOk with
        | false => exact hord ⟨rfl, hw, hok⟩
        | true => exact hlive.1 (hrest hw hok)
      refine hnext .serve .idle (if_neg hserve) ?_ ⟨?_, fun s m hg => absurd hg (by simp)⟩ rfl
      · rw [if_pos hne]
        exact Talk.run_append h.events rfl
      · exact fun hw hok => hdead _ (hrest hw hok)
  | running pid' =>
      obtain ⟨happ, hw, hpid'⟩ := hrest
      by_cases heq : pid = pid'
      · -- the process that the shell waits for has ended
        subst heq
        refine hnext .exited (.ended pid) (if_pos ⟨hne, hw, happ⟩) ?_
          ⟨fun _ => ⟨pid, rfl, happ, ?_⟩, fun hx => absurd rfl hx⟩ rfl
        · rw [if_pos hne]
          exact Talk.run_append h.events (by simp [Talk.next])
        · refine if_pos ?_
          rw [Sys.goneBy, if_neg hne, decide_eq_true rfl, Bool.true_and]
          generalize st pid = y at hlive
          cases y with
          | unborn => exact absurd rfl hlive.2
          | _ => rfl
      · refine hnext .serve (.running pid') (if_neg ?_) ?_
          ⟨⟨happ, hw, ?_⟩, fun s m hg => absurd hg (by simp)⟩ rfl
        · rintro ⟨-, -, happ'⟩
          exact heq (happ'.symm.trans happ)
        · rw [if_pos hne]
          exact Talk.run_append h.events (by simp [Talk.next, heq])
        · have hkept' : Sys.goneBy st pid pid' = false := by
            rw [Sys.goneBy, if_neg hne, decide_eq_false (Ne.symm heq), Bool.false_and]
          simp only [hkept']
          exact hpid'
  | asked | spawned | ended => exact hrest.elim

/-- **Every step keeps to the protocol**, if `sys_proc` does not mistake the end of a process. -/
theorem step {T : Ev ℤ (Msg B) → Prop} {A : ℤ → Prop} {n' : ℕ} (h : Dialogue st pr t)
    (hserv : Serving env .atomic st pr n)
    (hT : ∀ e st', Step st e st' → T e → Serving.Fair pr e)
    (hord : A GPID_PROCESS → ∀ pid, pr.op GPID_PROCESS .atomic = .free pid →
      ¬ (pid = pr.appPid ∧ pr.shellWaiting = true ∧ pr.spawnOk = false))
    (hs : ProgStep env .atomic T A st pr n st' pr' n') : ∃ t', Dialogue st' pr' t' := by
  cases hs with
  | quiet => exact ⟨t, h⟩
  | trap hs he => exact ⟨t, h.trap hserv hs (hT _ _ hs he)⟩
  | send _ hst hop => exact h.send hserv hst hop
  | recv _ hst hop => exact ⟨t, h.recv hserv hst hop⟩
  | answer _ hst hop => exact ⟨t, h.answer hserv hst hop⟩
  | alloc _ hst hop hnew => exact h.alloc hst hop hnew
  | ready _ hst hop hpid => exact ⟨t, h.ready hserv hst hop hpid⟩
  | free hA hst hop hpid => exact h.free hst hop (hord hA _ hop)
  | retSend hst => exact ⟨t, h.retSend hserv hst⟩
  | retRecv hst => exact h.retRecv hserv hst
  | choose hst hc => exact ⟨t, h.choose hserv hst hc⟩

end Dialogue

/-! ### Runs -/

namespace World

/-- The stage of a process, as far as it exists. -/
def stage (w : World B) (p : ℤ) : Stage ℤ (Msg B) :=
  let sc := w.sys.kernel.mem p
  match w.sys.kernel.view p, w.sys.phase p with
  | .dead, _ => .dead
  | .loading, _ => .loading
  | .waitRecv, _ => .waitRecv
  | .waitSend _, .sendTrap q m => .waitSend q m
  | .run, .sendCall q m => .sendCall q m
  | .run, .sendTrap q m => .sent q m (sc.retval = 0)
  | .run, .recvCall _ => .recvCall
  | .run, .recvTrap _ => .got sc.msg.sender sc.msg.content
  | _, _ => .user

/-- **Shell and `sys_proc` are in step.** -/
structure InStep (w : World B) (t : Talk) : Prop where
  /-- All that `sys_proc` has done is allowed by the protocol. -/
  events : Talk.run w.progs.events = some t
  /-- The shell is still to receive what `sys_proc` is still to send. -/
  agree : shellWaits (w.stage GPID_SHELL) (w.progs.act GPID_SHELL) =
    procOwes (w.stage GPID_PROCESS) (w.progs.act GPID_PROCESS) t
  /-- The shell receives messages of `sys_proc` only. -/
  sender : ∀ s m, w.stage GPID_SHELL = .got s m → s = GPID_PROCESS
  /-- They do not wait for each other. -/
  alive : ¬ (w.sys.kernel.view GPID_PROCESS = .waitSend GPID_SHELL ∧
    w.sys.kernel.view GPID_SHELL = .waitSend GPID_PROCESS)

/-- **The condition on a move.**  If `sys_proc` frees the process that it created last, which has
ended, and has noted that the shell waits, then the last `app_spawn` did not fail.  The counter of
processes does not overflow. -/
def Orderly (w : World B) : Move → Prop
  | .act =>
      (w.progs.op w.sys.curr .atomic = .alloc → w.sys.kernel.procNprocs + 1 < 2 ^ 31) ∧
        (w.progs.op w.sys.curr .atomic = .free w.progs.appPid → w.progs.shellWaiting = true →
          w.progs.spawnOk = true)
  | _ => True

instance [DecidableEq B] (w : World B) : DecidablePred w.Orderly
  | .act => inferInstanceAs (Decidable ((w.progs.op w.sys.curr .atomic = .alloc → _) ∧
      (w.progs.op w.sys.curr .atomic = .free _ → _ = true → _ = true)))
  | .intr _ _ | .ret | .choose _ => inferInstanceAs (Decidable True)

variable {w w' : World B}

/-- The stages are those of the simulation. -/
theorem stage_eq (hsim : Sys.Sim copyMsg w.sys st) (hp : st p ≠ .unborn) : w.stage p = st p := by
  have hst := hsim.stage p
  rw [stage]
  cases hx : st p with
  | unborn => exact absurd hx hp
  | dead =>
      rw [hx] at hst
      rw [show w.sys.kernel.view p = .dead from hst]
  | loading | user =>
      rw [hx] at hst
      rw [hst.1, hst.2]
  | sendCall | waitSend =>
      rw [hx] at hst
      rw [hst.1, hst.2.1]
  | recvCall | waitRecv =>
      rw [hx] at hst
      obtain ⟨hv, ⟨k, -, hph⟩, -⟩ := hst
      rw [hv, hph]
  | sent q m ok =>
      rw [hx] at hst
      obtain ⟨hv, hph, -, hret⟩ := hst
      simp only [hv, hph, hret]
      cases ok <;> rfl
  | got s m =>
      rw [hx] at hst
      obtain ⟨hv, ⟨k, -, hph⟩, -, -, hs, hc⟩ := hst
      simp only [hv, hph, hs, eq_of_holds hc]

/-- The stage of a process that waits to send. -/
theorem waitSend_of_view {q : ℤ} (hsim : Sys.Sim copyMsg w.sys st)
    (hv : w.sys.kernel.view p = .waitSend q) : ∃ m, st p = .waitSend q m := by
  have hst := hsim.stage p
  rw [hv] at hst
  cases hx : st p with
  | waitSend q' m =>
      rw [hx] at hst
      obtain ⟨hq, -⟩ := hst
      obtain rfl := PView.waitSend.inj hq
      exact ⟨m, rfl⟩
  | _ =>
      rw [hx] at hst
      simp [Sys.AtStage] at hst

/-- The invariant says that they are in step. -/
theorem inStep (hsim : Sys.Sim copyMsg w.sys st)
    (hserv : Serving env .atomic st w.progs n) (h : Dialogue st w.progs t) : w.InStep t := by
  have hst1 := stage_eq hsim (Dialogue.proc_born hserv)
  -- the shell may not have been created yet
  have hst4 : w.stage GPID_SHELL = st GPID_SHELL ∨
      w.stage GPID_SHELL = .dead ∧ st GPID_SHELL = .unborn := by
    by_cases hborn : st GPID_SHELL = .unborn
    · have hview := hsim.stage GPID_SHELL
      rw [hborn] at hview
      refine Or.inr ⟨?_, hborn⟩
      rw [stage, show w.sys.kernel.view GPID_SHELL = .dead from hview]
    · exact Or.inl (stage_eq hsim hborn)
  refine ⟨h.events, ?_, fun s m hg => ?_, ?_⟩
  · rw [hst1, ← h.agree]
    rcases hst4 with hst4 | ⟨hst4, hborn⟩
    · rw [hst4]
    · rw [hst4, hborn]
      cases w.progs.act GPID_SHELL <;> rfl
  · rcases hst4 with hst4 | ⟨hst4, -⟩
    · rw [hst4] at hg
      exact h.sender s m hg
    · rw [hst4] at hg
      simp at hg
  · rintro ⟨hv1, hv4⟩
    obtain ⟨m1, h1⟩ := waitSend_of_view hsim hv1
    obtain ⟨m4, h4⟩ := waitSend_of_view hsim hv4
    have hs1 := Dialogue.sends_of_stage hserv (Or.inr h1)
    have hs4 := Dialogue.sends_of_stage hserv (Or.inr h4)
    have hagree := h.agree
    rw [h1, h4] at hagree
    generalize w.progs.act GPID_PROCESS = a at hs1 hagree
    generalize w.progs.act GPID_SHELL = b at hs4 hagree
    -- the shell sends a request, and so waits for nothing
    cases hs4 with
    | command | killall =>
        cases hs1 with
        | reply | exited => simp [shellWaits, procOwes] at hagree
        | command hp | killall hp | exit hp | notify hp | server hp => exact absurd hp (by decide)
    | reply hp | exited hp | exit hp | notify hp | server hp => exact absurd hp (by decide)

/-- No trap is unfair if calls are answered at once. -/
theorem fair_of_atomic {l : Move} (hserv : Serving env .atomic st w.progs n)
    {e : Ev ℤ (Msg B)} (hs : Step st e st') (he : w.Trap l e) : Serving.Fair w.progs e := by
  obtain ⟨tty, rfl, hc, hev⟩ := he
  cases hs with
  | give _ hq => exact fun _ r k ha => absurd ha ((hserv.loc _ (by rw [hq]; simp)).atomic rfl r k)
  | take hq _ => exact fun _ r k ha => absurd ha ((hserv.loc _ (by rw [hq]; simp)).atomic rfl r k)
  | fail | block | wait => trivial
  | sysSend | sysRecv | retSend | retRecv | spawn | ready | kill => exact hev.elim

theorem dialogue_boot (mem : ℤ → Syscall (Msg B)) (registers : Fin 29 → UInt32) :
    Dialogue Sys.stage₀ (boot mem registers : World B).progs .idle :=
  ⟨rfl, fun hw => absurd hw (by simp [boot]), rfl,
    fun _ _ hg => absurd (show Stage.unborn = Stage.got _ _ from hg) (by simp),
    ⟨fun hd => absurd (show Stage.user = Stage.dead from hd) (by simp),
      fun hd => absurd (show Stage.unborn = Stage.dead from hd) (by simp)⟩⟩

end World

/-- **Shell and `sys_proc` stay in step.**  In a run in which `sys_proc` does not take the end of an
older process for that of a command which has failed, it sends to the shell what the protocol says
and what the shell waits for, and the two never wait for each other. -/
theorem shell_in_step (env : Env B) (mem : ℤ → Syscall (Msg B)) (registers : Fin 29 → UInt32)
    (ls : List Move)
    (h : Runs.EveryStep (fun w l => w.step env .atomic l) (fun w l _ => w.Orderly l)
      (World.boot mem registers) ls) :
    Runs.EveryStep (fun w l => w.step env .atomic l) (fun _ _ w' => ∃ t, w'.InStep t)
      (World.boot mem registers) ls := by
  refine Runs.EveryStep.imp (I := fun w _ => ∃ st t, Sys.Sim World.copyMsg w.sys st ∧
    Serving env .atomic st w.progs w.sys.kernel.procNprocs ∧ Dialogue st w.progs t) ?_ ls _ ?_ h
  · rintro w l - w' ⟨st, t, hsim, hserv, hdial⟩ hs hord
    have hn : l = .act → w.progs.op w.sys.curr .atomic = .alloc →
        w.sys.kernel.procNprocs + 1 < 2 ^ 31 := by
      rintro rfl
      exact hord.1
    obtain ⟨st', hsim', hstep⟩ := World.progStep hsim hn hs
    have hfair : ∀ e st'', Step st e st'' → w.Trap l e → Serving.Fair w.progs e :=
      fun e st'' he hT => World.fair_of_atomic hserv he hT
    obtain ⟨t', hdial'⟩ := hdial.step hserv hfair (by
      rintro ⟨rfl, hcurr⟩ pid hop ⟨rfl, hw, hok⟩
      rw [hcurr] at hop
      rw [hord.2 hop hw] at hok
      simp at hok) hstep
    have hserv' := hserv.step hfair hstep
    exact ⟨⟨t', World.inStep hsim' hserv' hdial'⟩, st', t', hsim', hserv', hdial'⟩
  · exact ⟨_, _, Sys.sim_boot mem registers, World.serving_boot mem registers,
      World.dialogue_boot mem registers⟩

/-! ### A deadlock -/

/-- A file system in which every command but `y` is found. -/
def commandEnv : Env Unit where
  read _ _ := (true, ())
  find _ name := if name = ['y'] then -1 else 7
  load _ := .done

/-- The shell runs `x` in the background twice, which are processes 6 and 7, and then tries
`y`.  Its first command, process 5, ends at once, and process 7 after the attempt to run `y`. -/
def hurry (w : World Unit) : Option Choice :=
  match w.progs.act w.sys.curr with
  | .prompt =>
      if w.progs.appPid < 7 then some (.command ⟨['x'], [['&']]⟩)
      else if w.progs.spawnOk ∨ w.progs.act GPID_PROCESS = .exited then some (.command ⟨['y'], []⟩)
      else none
  | .user => if w.sys.curr = 5 ∨ w.sys.curr = 7 ∧ w.progs.spawnOk = false then some .exit else none
  | _ => none

/-- The run until the end of the first command is told to the shell. -/
def orderlyRun : List Move := smallBoot.moves commandEnv .atomic hurry 50

theorem shell_in_step_orderlyRun :
    (smallBoot.run commandEnv .atomic orderlyRun).any (fun w => w.progs.events =
      [.request ⟨['c', 'd'], []⟩, .spawn 5, .tell true, .exit 5, .tell false]) = true ∧
    Runs.EveryStep (fun w l => w.step commandEnv .atomic l) (fun _ _ w' => ∃ t, w'.InStep t)
      smallBoot orderlyRun :=
  ⟨by decide +kernel, shell_in_step commandEnv _ _ orderlyRun (by decide +kernel)⟩

/-- The run until the shell tries to run `y` again. -/
def hurriedRun : List Move := smallBoot.moves commandEnv .atomic hurry 126

/-- **The shell and `sys_proc` wait for each other**: `sys_proc` has told the shell the end of
process 7, which the protocol does not allow. -/
theorem shell_deadlock :
    ∃ w, smallBoot.run commandEnv .atomic hurriedRun = some w ∧
      w.sys.kernel.view GPID_PROCESS = .waitSend GPID_SHELL ∧
      w.sys.kernel.view GPID_SHELL = .waitSend GPID_PROCESS ∧ Talk.run w.progs.events = none := by
  have h : (smallBoot.run commandEnv .atomic hurriedRun).any (fun w =>
      w.sys.kernel.view GPID_PROCESS = .waitSend GPID_SHELL ∧
      w.sys.kernel.view GPID_SHELL = .waitSend GPID_PROCESS ∧
      Talk.run w.progs.events = none) = true := by
    decide +kernel
  obtain ⟨w, hw, h⟩ := (Option.any_eq_true _ _).1 h
  exact ⟨w, hw, of_decide_eq_true h⟩

end Egos
