/-
**Who owes a reply to whom.**

The invariant of the processes and their programs.  Every process only does what its program is made
of, and the messages that the servers get are requests they are meant to handle.  A server that has
taken a request of a client owes it the reply, and the client waits for just this reply; so a client
that gets a message inside `dir_lookup` or `file_read` gets the reply to its request, unless it is a
server itself, to which others may send requests at any time.

The invariant holds in both modes: if the calls are answered at once, nobody owes anything.

Main definitions:

* `Egos.Act.Fits` — what a process may be about to do;
* `Egos.Owes`, `Egos.Awaits` — a server owes a reply, and a client waits for one;
* `Egos.Serving` — **the invariant**.

Main results:

* `Egos.Serving.set`, `Egos.Serving.keep` — a change to one process;
* `Egos.Serving.deliver` — a message changes hands.
-/

import Egos.Programs

set_option autoImplicit false

namespace Egos

open Function (update update_eq_self update_of_ne update_self)
open Rendezvous (Stage Ev Step)

variable {B : Type}

/-! ### Which process does what -/

/-- The process may use the reply to the request in this way. -/
def Kont.Fits (p : ℤ) (r : Request) : Kont B → Prop
  | .user => p ≥ GPID_USER_START
  | .lookup _ _ _ => p = GPID_DIR ∧ ∃ ino, r = .fileRead ino 0
  | .bin _ => p = GPID_PROCESS ∧ ∃ ino name, r = .dirLookup ino name
  | .app _ => p = GPID_PROCESS ∧ ∃ ino name, r = .dirLookup ino name
  | .load _ _ _ _ => p = GPID_PROCESS ∧ ∃ ino offset, r = .fileRead ino offset

/-- The process may be about to do this. -/
def Act.Fits (p : ℤ) : Act B → Prop
  | .user | .exit | .halt => p ≥ GPID_USER_START
  | .fatal f => f = .elfLoad
  | .call r k | .await r k => k.Fits p r
  | .notify | .reply _ _ => p = GPID_FILE ∨ p = GPID_DIR
  | .serve => p = GPID_PROCESS ∨ p = GPID_FILE ∨ p = GPID_DIR
  | .sysAlloc _ | .sysReady _ _ | .sysWait _ | .appAlloc _ _ | .appReady _ _ | .spawned _ _
  | .procFree _ | .exited => p = GPID_PROCESS
  | .prompt | .command _ | .awaitReply _ | .awaitExit | .killall => p = GPID_SHELL

theorem Act.fits_start {p : ℤ} (hp : 2 ≤ p) : (Act.start p : Act B).Fits p := by
  rw [Act.start]
  split
  · assumption
  · split
    · assumption
    · rename_i h₁ h₂
      change p ≥ 5
      have h₁' : ¬ (p = 2 ∨ p = 3) := h₁
      have h₂' : p ≠ 4 := h₂
      omega

theorem Act.fits_afterSend {p : ℤ} {a : Act B} (h : a.Fits p) : a.afterSend.Fits p := by
  cases a with
  | reply | notify => exact Or.inr h
  | spawned | exited => exact Or.inl h
  | _ => exact h

theorem Act.choose_cases {a a' : Act B} {c : Choice} (hc : a.choose c = some a') :
    a = .user ∨ a = .prompt := by
  cases a <;> cases c <;> simp [Act.choose] at hc ⊢

theorem Act.fits_choose {p : ℤ} {a a' : Act B} {c : Choice} (h : a.Fits p)
    (hc : a.choose c = some a') : a'.Fits p := by
  cases a <;> cases c <;> simp only [Act.choose, Option.some.injEq, reduceCtorEq] at hc
  all_goals
    subst hc
    exact h

theorem Act.fits_loadNext {env : Env B} {cmd : Cmd} {pid ino : ℤ} {blocks : List B} :
    (Act.loadNext env cmd pid ino blocks).Fits GPID_PROCESS := by
  rw [Act.loadNext]
  split
  · exact ⟨rfl, _, _, rfl⟩
  · rfl
  · rfl

/-- The caller goes on with the reply to its request. -/
theorem Act.fits_resume {env : Env B} {p : ℤ} {r : Request} {k : Kont B} (h : k.Fits p r) :
    (Act.resume env k (env.answer r)).Fits p := by
  cases k with
  | user => exact h
  | lookup c t name =>
      obtain ⟨rfl, ino, rfl⟩ := h
      exact Or.inr rfl
  | bin cmd =>
      obtain ⟨rfl, ino, name, rfl⟩ := h
      exact ⟨rfl, _, _, rfl⟩
  | app cmd =>
      obtain ⟨rfl, ino, name, rfl⟩ := h
      simp only [Act.resume, Env.answer]
      split_ifs <;> rfl
  | load cmd pid ino blocks =>
      obtain ⟨rfl, ino', offset, rfl⟩ := h
      exact Act.fits_loadNext

/-- The messages that a server is meant to handle. -/
def Body.Proper (p : ℤ) : Body B → Prop
  | .spawn _ | .exit | .killall => p = GPID_PROCESS
  | .request r => p = r.server
  | _ => False

theorem Act.fits_handle {env : Env B} {p s : ℤ} {m : Msg B} (h : m.body.Proper p) :
    (Act.handle env p s m).Fits p := by
  rw [Act.handle]
  cases hm : m.body with
  | finish | procReply | fileReply | dirReply =>
      rw [hm] at h
      exact h.elim
  | spawn cmd =>
      rw [hm] at h
      obtain rfl : p = GPID_PROCESS := h
      exact ⟨rfl, _, _, rfl⟩
  | exit | killall =>
      rw [hm] at h
      obtain rfl : p = GPID_PROCESS := h
      rfl
  | request r =>
      rw [hm] at h
      cases r with
      | fileRead ino offset =>
          obtain rfl : p = GPID_FILE := h
          exact Or.inl rfl
      | dirLookup ino name =>
          obtain rfl : p = GPID_DIR := h
          exact ⟨rfl, ino, rfl⟩

theorem Act.op_call_ne_recv {mode : Mode} {tag : ℤ × ℕ} {r : Request} {k : Kont B} :
    (Act.call r k).op mode tag ≠ .recv := by
  cases mode <;> simp [Act.op]

/-- A request is only sent if calls are carried out by messages. -/
theorem Act.op_call_send {mode : Mode} {tag : ℤ × ℕ} {r : Request} {k : Kont B} {q : ℤ} {m : Msg B}
    (h : (Act.call r k).op mode tag = .send q m) :
    mode = .messages ∧ q = r.server ∧ m = ⟨.request r, tag⟩ := by
  cases mode with
  | messages =>
      obtain ⟨rfl, rfl⟩ := Op.send.inj h
      exact ⟨rfl, rfl, rfl⟩
  | atomic => simp [Act.op] at h

/-! ### Who owes a reply to whom -/

/-- The call has not ended yet. -/
def NotSent : Stage ℤ (Msg B) → Prop
  | .sent _ _ _ => False
  | _ => True

/-- The process has taken the request `t` of `c` and has not replied. -/
inductive Owes (x : Stage ℤ (Msg B)) : Act B → ℤ → ℤ × ℕ → Prop
  | got {c : ℤ} {r : Request} {t : ℤ × ℕ} (hx : x = .got c ⟨.request r, t⟩) : Owes x .serve c t
  | call {r : Request} {c : ℤ} {t : ℤ × ℕ} {name : Name} : Owes x (.call r (.lookup c t name)) c t
  | await {r : Request} {c : ℤ} {t : ℤ × ℕ} {name : Name} : Owes x (.await r (.lookup c t name)) c t
  | reply {c : ℤ} {m : Msg B} (hx : NotSent x) : Owes x (.reply c m) c m.tag

/-- What the process will reply is the answer to `r`. -/
def Promise (env : Env B) (x : Stage ℤ (Msg B)) (r : Request) : Act B → Prop
  | .serve => ∃ c t, x = .got c ⟨.request r, t⟩
  | .call r' (.lookup _ _ name) => ∃ ino, r' = .fileRead ino 0 ∧ r = .dirLookup ino name
  | .await r' (.lookup _ _ name) => ∃ ino, r' = .fileRead ino 0 ∧ r = .dirLookup ino name
  | .reply _ m => m.body = env.answer r
  | _ => False

/-- The process, whose next call is `tag`, has handed over the request `r` of the call `t` and waits
for the reply. -/
def Awaits (x : Stage ℤ (Msg B)) (a : Act B) (tag t : ℤ × ℕ) (r : Request) : Prop :=
  t = tag ∧ ((∃ k, a = .call r k ∧ ¬ NotSent x) ∨
    ∃ k, a = .await r k ∧ (x = .user ∨ x = .recvCall ∨ x = .waitRecv))

/-- The stage of a process that is about to do something. -/
def StageFits (mode : Mode) (x : Stage ℤ (Msg B)) (p : ℤ) (a : Act B) (tag : ℤ × ℕ) : Prop :=
  match x with
  | .sendCall q m => a.op mode tag = .send q m
  | .waitSend q m => a.op mode tag = .send q m
  | .sent q m _ => a.op mode tag = .send q m
  | .recvCall => a.op mode tag = .recv
  | .waitRecv => a.op mode tag = .recv
  | .got _ _ => a.op mode tag = .recv
  | .loading => a = .start p
  | _ => True

/-- What holds of a single process. -/
structure Local (env : Env B) (mode : Mode) (p : ℤ) (x : Stage ℤ (Msg B)) (a : Act B)
    (tag : ℤ × ℕ) : Prop where
  stage : StageFits mode x p a tag
  fits : a.Fits p
  /-- A reply that has arrived is the right one. -/
  got : ∀ s m r k, x = .got s m → a = .await r k →
    s = r.server ∧ m = ⟨env.answer r, tag⟩
  proper : ∀ s m, x = .got s m → a = .serve → m.body.Proper p
  /-- A call that is answered at once does not wait for a reply. -/
  atomic : mode = .atomic → ∀ r k, a ≠ .await r k

/-- The process has yet to send its notification. -/
def Notifier (x : Stage ℤ (Msg B)) (a : Act B) : Prop :=
  a = .notify ∧ NotSent x ∧ x ≠ .dead ∧ x ≠ .unborn

/-- The server whose notification `sys_proc` is to receive. -/
def expecting (x : Stage ℤ (Msg B)) : Act B → Option ℤ
  | .sysReady _ pid => some pid
  | .sysWait k =>
      match x with
      | .got _ _ => none
      | _ => some ((k : ℤ) + 2)
  | _ => none

/-- The number of processes, while `sys_proc` starts the system processes and afterwards. -/
def BootCount (n : ℕ) : Act B → Prop
  | .sysAlloc k => n = k + 1 ∧ k ≤ 2
  | .sysReady k pid => n = k + 2 ∧ pid = (k : ℤ) + 2 ∧ k ≤ 2
  | .sysWait k => n = k + 2 ∧ k ≤ 1
  | _ => 4 ≤ n

/-- An activity that is neither owed to anybody nor part of the start of the system. -/
def Act.Plain : Act B → Prop
  | .notify | .reply _ _ | .sysAlloc _ | .sysReady _ _ | .sysWait _ => False
  | .call _ (.lookup _ _ _) | .await _ _ => False
  | _ => True

theorem Act.Plain.ne_notify {a : Act B} (h : a.Plain) : a ≠ .notify := by
  rintro rfl
  exact h

theorem Act.Plain.ne_await {a : Act B} (h : a.Plain) (r : Request) (k : Kont B) :
    a ≠ .await r k := by
  rintro rfl
  exact h

theorem Act.Plain.not_owes {a : Act B} (h : a.Plain) (c : ℤ) (t : ℤ × ℕ) : ¬ Owes .user a c t := by
  intro ho
  cases ho with
  | got hx => simp at hx
  | call | await | reply => exact h

theorem Act.Plain.boot {a : Act B} (h : a.Plain) {n : ℕ} (hn : 4 ≤ n) : BootCount n a := by
  cases a <;> first | exact hn | exact h.elim

/-- Only `sys_dir` owes something when it goes on with a reply. -/
theorem Act.resume_cases {env : Env B} {p : ℤ} {r : Request} {k : Kont B} (h : k.Fits p r) :
    (∃ c t name ino, k = .lookup c t name ∧ r = .fileRead ino 0) ∨
      (Act.resume env k (env.answer r)).Plain := by
  cases k with
  | user => exact Or.inr trivial
  | lookup c t name =>
      obtain ⟨-, ino, rfl⟩ := h
      exact Or.inl ⟨c, t, name, ino, rfl, rfl⟩
  | bin cmd =>
      obtain ⟨-, ino, name, rfl⟩ := h
      exact Or.inr trivial
  | app cmd =>
      obtain ⟨-, ino, name, rfl⟩ := h
      refine Or.inr ?_
      simp only [Act.resume, Env.answer]
      split_ifs <;> trivial
  | load cmd pid ino blocks =>
      obtain ⟨-, ino', offset, rfl⟩ := h
      refine Or.inr ?_
      simp only [Act.resume, Env.answer, Act.loadNext]
      split <;> trivial

/-- **The invariant of the processes and their programs.** -/
structure Serving (env : Env B) (mode : Mode) (st : ℤ → Stage ℤ (Msg B)) (pr : Progs B) (n : ℕ) :
    Prop where
  born : ∀ p, st p = .unborn ↔ p ≤ 0 ∨ (n : ℤ) < p
  loc : ∀ p, st p ≠ .unborn → Local env mode p (st p) (pr.act p) (pr.tag p)
  /-- A debt is the reply to the request that the client waits for. -/
  debt : ∀ v c t, st v ≠ .dead → st v ≠ .unborn → Owes (st v) (pr.act v) c t →
    st c = .dead ∨ ∃ r, v = r.server ∧ Awaits (st c) (pr.act c) (pr.tag c) t r ∧
      Promise env (st v) r (pr.act v)
  boot : BootCount n (pr.act GPID_PROCESS)
  notify : ∀ p, Notifier (st p) (pr.act p) →
    expecting (st GPID_PROCESS) (pr.act GPID_PROCESS) = some p

namespace Serving

variable {env : Env B} {mode : Mode} {st : ℤ → Stage ℤ (Msg B)} {pr pr' : Progs B} {n : ℕ} {p : ℤ}
  {x : Stage ℤ (Msg B)} {a : Act B}

/-- No server waits for itself. -/
theorem no_self (h : Serving env mode st pr n) (hp : st p ≠ .unborn)
    (hlive : st p ≠ .dead) {t : ℤ × ℕ} : ¬ Owes (st p) (pr.act p) p t := by
  intro ho
  rcases h.debt p p t hlive hp ho with hd | ⟨r, hv, haw, -⟩
  · exact hlive hd
  · have hfits := (h.loc p hp).fits
    -- the process has made a call itself, so its debt is for a `dir_lookup`
    generalize st p = y at ho haw
    generalize pr.act p = b at ho haw hfits
    obtain ⟨-, ⟨k, rfl, -⟩ | ⟨k, rfl, -⟩⟩ := haw
    all_goals
      cases ho
      obtain ⟨rfl, ino, rfl⟩ := hfits
      exact absurd (show (3 : ℤ) = 2 from hv) (by decide)

/-- **A change to one process.** -/
theorem set (h : Serving env mode st pr n) (hp : st p ≠ .unborn) (hlive : st p ≠ .dead)
    (hx : x ≠ .unborn)
    (hact : pr'.act = update pr.act p a) (hcalls : ∀ q, q ≠ p → pr'.calls q = pr.calls q)
    (hloc : Local env mode p x a (pr'.tag p))
    (hdebt : ∀ c t, Owes x a c t → c ≠ p ∧ (st c = .dead ∨ ∃ r, p = r.server ∧
      Awaits (st c) (pr.act c) (pr.tag c) t r ∧ Promise env x r a))
    (hwait : ∀ v t r, v ≠ p → st v ≠ .dead → st v ≠ .unborn → Owes (st v) (pr.act v) p t →
      v = r.server → Awaits (st p) (pr.act p) (pr.tag p) t r → Awaits x a (pr'.tag p) t r)
    (hnote : Notifier x a → Notifier (st p) (pr.act p))
    (hone : p = GPID_PROCESS → BootCount n a ∧
      ∀ q, Notifier (st q) (pr.act q) → expecting x a = some q) :
    Serving env mode (update st p x) pr' n := by
  have htag : ∀ q, q ≠ p → pr'.tag q = pr.tag q := fun q hq => by
    rw [Progs.tag, hcalls q hq, Progs.tag]
  refine ⟨fun q => ?_, fun q hq => ?_, fun v c t hv hv0 ho => ?_, ?_, fun q hq => ?_⟩
  · by_cases hqp : q = p
    · subst hqp
      rw [update_self, ← h.born q]
      exact ⟨fun he => absurd he hx, fun he => absurd he hp⟩
    · rw [update_of_ne hqp]
      exact h.born q
  · by_cases hqp : q = p
    · subst hqp
      rw [hact, update_self, update_self]
      exact hloc
    · rw [update_of_ne hqp] at hq ⊢
      rw [hact, update_of_ne hqp, htag q hqp]
      exact h.loc q hq
  · rw [hact] at ho ⊢
    by_cases hvp : v = p
    · subst hvp
      rw [update_self, update_self] at ho
      obtain ⟨hcv, hc⟩ := hdebt c t ho
      simp only [update_self, update_of_ne hcv, htag c hcv]
      exact hc
    · rw [update_of_ne hvp] at hv hv0 ho
      rw [update_of_ne hvp] at ho
      have hd := h.debt v c t hv hv0 ho
      simp only [update_of_ne hvp]
      by_cases hcp : c = p
      · subst hcp
        obtain hd | ⟨r, hr, haw, hprom⟩ := hd
        · exact absurd hd hlive
        · simp only [update_self]
          exact Or.inr ⟨r, hr, hwait v t r hvp hv hv0 ho hr haw, hprom⟩
      · simp only [update_of_ne hcp, htag c hcp]
        exact hd
  · rw [hact]
    by_cases h1 : p = GPID_PROCESS
    · subst h1
      rw [update_self]
      exact (hone rfl).1
    · rw [update_of_ne (Ne.symm h1)]
      exact h.boot
  · -- a process that has yet to notify had to do so before
    have hold : Notifier (st q) (pr.act q) := by
      rw [hact] at hq
      by_cases hqp : q = p
      · subst hqp
        rw [update_self, update_self] at hq
        exact hnote hq
      · rwa [update_of_ne hqp, update_of_ne hqp] at hq
    rw [hact]
    by_cases h1 : p = GPID_PROCESS
    · subst h1
      rw [update_self, update_self]
      exact (hone rfl).2 q hold
    · rw [update_of_ne (Ne.symm h1), update_of_ne (Ne.symm h1)]
      exact h.notify q hold

/-- A change to one process that keeps its debts. -/
theorem keep (h : Serving env mode st pr n) (hp : st p ≠ .unborn) (hlive : st p ≠ .dead)
    (hx : x ≠ .unborn) (hact : pr'.act = update pr.act p a)
    (hcalls : ∀ q, q ≠ p → pr'.calls q = pr.calls q) (hloc : Local env mode p x a (pr'.tag p))
    (hdebt : ∀ c t, Owes x a c t → Owes (st p) (pr.act p) c t ∧
      ∀ r, p = r.server → Promise env (st p) r (pr.act p) → Promise env x r a)
    (hwait : ∀ v t r, v ≠ p → st v ≠ .dead → st v ≠ .unborn → Owes (st v) (pr.act v) p t →
      v = r.server → Awaits (st p) (pr.act p) (pr.tag p) t r → Awaits x a (pr'.tag p) t r)
    (hnote : Notifier x a → Notifier (st p) (pr.act p))
    (hone : p = GPID_PROCESS → BootCount n a ∧
      ∀ q, Notifier (st q) (pr.act q) → expecting x a = some q) :
    Serving env mode (update st p x) pr' n := by
  refine h.set hp hlive hx hact hcalls hloc (fun c t ho => ?_) hwait hnote hone
  obtain ⟨hold, hprom⟩ := hdebt c t ho
  refine ⟨?_, ?_⟩
  · rintro rfl
    exact h.no_self hp hlive hold
  · rcases h.debt p c t hlive hp hold with hd | ⟨r, hr, haw, hpr⟩
    · exact Or.inl hd
    · exact Or.inr ⟨r, hr, haw, hprom r hr hpr⟩

/-- Only the activities and the number of calls matter. -/
theorem congr (h : Serving env mode st pr n) (hact : pr'.act = pr.act)
    (hcalls : pr'.calls = pr.calls) :
    Serving env mode st pr' n := by
  have htag : pr'.tag = pr.tag := by
    funext q
    rw [Progs.tag, hcalls, Progs.tag]
  refine ⟨h.born, ?_, ?_, ?_, ?_⟩
  · rw [hact, htag]
    exact h.loc
  · rw [hact, htag]
    exact h.debt
  · rw [hact]
    exact h.boot
  · rw [hact]
    exact h.notify

/-- A process goes on to another stage of its calls, and no message arrives. -/
theorem setStage (h : Serving env mode st pr n) (hp : st p ≠ .unborn) (hlive : st p ≠ .dead)
    (hx : x ≠ .unborn) (hxlive : x ≠ .dead) (hgot : ∀ s m, st p ≠ .got s m)
    (hgot' : ∀ s m, x ≠ .got s m) (hfit : StageFits mode x p (pr.act p) (pr.tag p))
    (hsent : NotSent x → NotSent (st p))
    (hwait : ∀ t r, Awaits (st p) (pr.act p) (pr.tag p) t r →
      Awaits x (pr.act p) (pr.tag p) t r) : Serving env mode (update st p x) pr n := by
  refine h.keep hp hlive hx (update_eq_self p pr.act).symm (fun _ _ => rfl)
    ⟨hfit, (h.loc p hp).fits, fun s m _ _ hg => absurd hg (hgot' s m),
      fun s m hg => absurd hg (hgot' s m), (h.loc p hp).atomic⟩
    (fun c t ho => ⟨?_, fun r _ hprom => ?_⟩)
    (fun v t r _ _ _ _ _ => hwait t r) (fun hn => ⟨hn.1, hsent hn.2.1, hlive, hp⟩) fun h1 => ?_
  · generalize pr.act p = b at ho ⊢
    cases ho with
    | got hg => exact absurd hg (hgot' _ _)
    | call => exact .call
    | await => exact .await
    | reply hn => exact .reply (hsent hn)
  · generalize pr.act p = b at hprom ⊢
    cases b with
    | serve =>
        obtain ⟨c, t, hg⟩ := hprom
        exact absurd hg (hgot _ _)
    | call r' k | await r' k => cases k <;> exact hprom
    | _ => exact hprom
  · subst h1
    refine ⟨h.boot, fun q hq => ?_⟩
    rw [← h.notify q hq]
    cases pr.act GPID_PROCESS with
    | sysWait k =>
        cases hst : st GPID_PROCESS <;> cases x <;>
          first | rfl | exact absurd hst (hgot _ _) | exact absurd rfl (hgot' _ _)
    | _ => rfl

/-! ### Messages -/

/-- A process in the middle of `sys_send`. -/
theorem of_sending {q : ℤ} {m : Msg B} (h : Serving env mode st pr n)
    (hp : st p = .sendCall q m ∨ st p = .waitSend q m) :
    st p ≠ .unborn ∧ st p ≠ .dead ∧ NotSent (st p) ∧
      (pr.act p).op mode (pr.tag p) = .send q m := by
  have hne : st p ≠ .unborn := by rcases hp with hp | hp <;> rw [hp] <;> simp
  have hst := (h.loc p hne).stage
  rcases hp with hp | hp <;> rw [hp] at hst ⊢ <;> exact ⟨by simp, by simp, trivial, hst⟩

/-- A process in the middle of `sys_recv`. -/
theorem of_receiving {q : ℤ} (h : Serving env mode st pr n)
    (hq : st q = .waitRecv ∨ st q = .recvCall) :
    st q ≠ .unborn ∧ st q ≠ .dead ∧ (pr.act q).op mode (pr.tag q) = .recv := by
  have hne : st q ≠ .unborn := by rcases hq with hq | hq <;> rw [hq] <;> simp
  have hst := (h.loc q hne).stage
  rcases hq with hq | hq <;> rw [hq] at hst ⊢ <;> exact ⟨by simp, by simp, hst⟩

/-- The sender of a message goes on. -/
theorem sender {q : ℤ} {m : Msg B} (h : Serving env mode st pr n)
    (hp : st p = .sendCall q m ∨ st p = .waitSend q m) (ok : Bool) :
    Serving env mode (update st p (.sent q m ok)) pr n := by
  obtain ⟨hne, hlive, hsent, hop⟩ := h.of_sending hp
  refine h.setStage hne hlive (by simp) (by simp) ?_ (by simp) hop (fun hn => hn.elim)
    fun t r haw => ?_
  · rcases hp with hp | hp <;> rw [hp] <;> simp
  · obtain ⟨-, ⟨k, -, hs⟩ | ⟨k, -, hs⟩⟩ := haw
    · exact absurd hsent hs
    · rcases hp with hp | hp <;> rw [hp] at hs <;> simp at hs

/-- The requests go to other processes than the one that waits for a reply. -/
theorem server_eq (r : Request) : r.server = 2 ∨ r.server = 3 := by
  cases r with
  | dirLookup => exact Or.inr rfl
  | fileRead => exact Or.inl rfl

/-- A server that makes a call. -/
theorem call_fits {q : ℤ} {r : Request} {k : Kont B} (h : k.Fits q r) : q ≠ 2 ∧ q ≠ 4 ∧
    (q = 3 → r.server = 2) := by
  cases k with
  | user =>
      have hq : q ≥ 5 := h
      exact ⟨by omega, by omega, by omega⟩
  | lookup =>
      obtain ⟨rfl, ino, rfl⟩ := h
      exact ⟨by decide, by decide, fun _ => rfl⟩
  | bin | app =>
      obtain ⟨rfl, -⟩ := h
      exact ⟨by decide, by decide, fun h3 => absurd h3 (by decide)⟩
  | load =>
      obtain ⟨rfl, -⟩ := h
      exact ⟨by decide, by decide, fun h3 => absurd h3 (by decide)⟩

/-- The receiver gets a message that it does not owe a reply to. -/
theorem receive {q : ℤ} {m : Msg B} (h : Serving env mode st pr n)
    (hq : st q = .waitRecv ∨ st q = .recvCall)
    (hloc : Local env mode q (.got p m) (pr.act q) (pr.tag q))
    (hnew : ∀ c t, Owes (.got p m) (pr.act q) c t → Owes (st q) (pr.act q) c t)
    (hwait : ∀ v t, v ≠ q → st v ≠ .dead → st v ≠ .unborn → ¬ Owes (st v) (pr.act v) q t)
    (hone : q = GPID_PROCESS → ∀ v, Notifier (st v) (pr.act v) →
      expecting (.got p m) (pr.act q) = some v) :
    Serving env mode (update st q (.got p m)) pr n := by
  obtain ⟨hne, hlive, -⟩ := h.of_receiving hq
  refine h.keep hne hlive (by simp) (update_eq_self q pr.act).symm (fun _ _ => rfl) hloc
    (fun c t ho => ⟨hnew c t ho, fun r _ hprom => ?_⟩)
    (fun v t r hv hd hu ho => absurd ho (hwait v t hv hd hu)) (fun hn => ⟨hn.1, ?_, hlive, hne⟩)
    fun h1 => ⟨?_, fun v hv => hone h1 v hv⟩
  · generalize pr.act q = b at hprom ⊢
    cases b with
    | serve =>
        obtain ⟨c, t, hg⟩ := hprom
        rcases hq with hq | hq <;> rw [hq] at hg <;> simp at hg
    | call r' k | await r' k => cases k <;> exact hprom
    | _ => exact hprom
  · rcases hq with hq | hq <;> rw [hq] <;> trivial
  · subst h1
    exact h.boot

/-- `sys_proc` waits for a notification only as long as there are few processes. -/
theorem le_three {k : ℕ} (h : Serving env mode st pr n) (h1 : pr.act GPID_PROCESS = .sysWait k)
    (hp : st p ≠ .unborn) : p ≤ 3 := by
  have hboot := h.boot
  rw [h1] at hboot
  obtain ⟨hn, hk⟩ := hboot
  by_contra hlt
  exact hp ((h.born p).2 (Or.inr (by omega)))

/-- Nobody owes a reply to a process that receives but has not made a call. -/
theorem not_owed {q v : ℤ} {t : ℤ × ℕ} (h : Serving env mode st pr n) (hq : st q ≠ .dead)
    (hop : (pr.act q).op mode (pr.tag q) = .recv) (ha : ∀ r k, pr.act q ≠ .await r k)
    (hv : st v ≠ .dead) (hv0 : st v ≠ .unborn) : ¬ Owes (st v) (pr.act v) q t := by
  intro ho
  rcases h.debt v q t hv hv0 ho with hd | ⟨r, -, ⟨-, ⟨k, hk, -⟩ | ⟨k, hk, -⟩⟩, -⟩
  · exact hq hd
  · rw [hk] at hop
    exact Act.op_call_ne_recv hop
  · exact ha r k hk

/-- A request arrives at a server. -/
theorem deliver_request {q : ℤ} {r : Request} {k : Kont B} (h : Serving env mode st pr n)
    (hap : pr.act p = .call r k) (hp : ¬ NotSent (st p)) (hpq : p ≠ q) (hr : q = r.server)
    (hq : st q = .waitRecv ∨ st q = .recvCall) (haq : pr.act q = .serve) :
    Serving env mode (update st q (.got p ⟨.request r, pr.tag p⟩)) pr n := by
  obtain ⟨hne, hlive, -⟩ := h.of_receiving hq
  have hq1 : q ≠ GPID_PROCESS := by
    rintro rfl
    rcases server_eq r with h2 | h3
    · rw [h2] at hr
      exact absurd hr (by decide)
    · rw [h3] at hr
      exact absurd hr (by decide)
  refine h.set (a := .serve) hne hlive (by simp) ?_ (fun _ _ => rfl)
    ⟨rfl, ?_, ?_, ?_, by simp⟩ ?_ ?_ ?_ ?_
  · rw [← haq, update_eq_self]
  · have := (h.loc q hne).fits
    rwa [haq] at this
  · exact fun s m r' k' _ ha => absurd ha (by simp)
  · rintro s m hg -
    obtain ⟨rfl, rfl⟩ := Stage.got.inj hg
    exact hr
  · intro c t ho
    cases ho with
    | got hg =>
        obtain ⟨rfl, hm⟩ := Stage.got.inj hg
        obtain ⟨hbody, rfl⟩ := Msg.mk.inj hm
        obtain rfl := Body.request.inj hbody
        exact ⟨hpq, Or.inr ⟨r, hr, ⟨rfl, Or.inl ⟨k, hap, hp⟩⟩, p, _, rfl⟩⟩
  · rintro v t r' - - - - - ⟨-, ⟨k', ha, -⟩ | ⟨k', ha, -⟩⟩
    · rw [haq] at ha
      simp at ha
    · rw [haq] at ha
      simp at ha
  · exact fun hn => absurd hn.1 (by simp)
  · exact fun h1 => absurd h1 hq1

/-- What a process that receives may be about to do. -/
theorem recv_cases {q : ℤ} {tag : ℤ × ℕ} (hfit : a.Fits q) (hop : a.op mode tag = .recv) :
    a = .serve ∨ (∃ r k, a = .await r k) ∨ (∃ k, a = .sysWait k ∧ q = GPID_PROCESS) ∨
      ((∃ cmd, a = .awaitReply cmd) ∨ a = .awaitExit) ∧ q = GPID_SHELL := by
  cases a with
  | serve => exact Or.inl rfl
  | await r k => exact Or.inr (Or.inl ⟨r, k, rfl⟩)
  | sysWait k => exact Or.inr (Or.inr (Or.inl ⟨k, rfl, hfit⟩))
  | awaitReply cmd => exact Or.inr (Or.inr (Or.inr ⟨Or.inl ⟨cmd, rfl⟩, hfit⟩))
  | awaitExit => exact Or.inr (Or.inr (Or.inr ⟨Or.inr rfl, hfit⟩))
  | call r k => exact absurd hop Act.op_call_ne_recv
  | _ => simp [Act.op] at hop

/-- A request arrives at `sys_proc`. -/
theorem deliver_proc {m : Msg B} (h : Serving env mode st pr n) (hp : st p ≠ .unborn) (h4 : 4 ≤ p)
    (hbody : m.body.Proper GPID_PROCESS)
    (h1 : st GPID_PROCESS = .waitRecv ∨ st GPID_PROCESS = .recvCall)
    (hfair : ∀ r k, pr.act GPID_PROCESS = .await r k → p = r.server) :
    Serving env mode (update st GPID_PROCESS (.got p m)) pr n := by
  obtain ⟨hne, hlive, hop⟩ := h.of_receiving h1
  have hfit := (h.loc GPID_PROCESS hne).fits
  have hserve : pr.act GPID_PROCESS = .serve := by
    rcases recv_cases hfit hop with ha | ⟨r, k, ha⟩ | ⟨k, ha, -⟩ | ⟨-, ha⟩
    · exact ha
    · have hr := hfair r k ha
      rcases server_eq r with h2 | h3 <;> omega
    · have := h.le_three ha hp
      omega
    · exact absurd ha (by decide)
  have hnot : ∀ r, m.body ≠ .request r := by
    intro r hr
    rw [hr] at hbody
    have hr1 : (1 : ℤ) = r.server := hbody
    rcases server_eq r with h2 | h3 <;> omega
  refine h.receive h1 ⟨hop, hfit, ?_, ?_, (h.loc _ hne).atomic⟩ (fun c t ho => ?_)
    (fun v t _ hv hv0 => ?_) fun _ v hv => ?_
  · intro s m' r k _ ha
    rw [hserve] at ha
    simp at ha
  · intro s m' hg _
    obtain ⟨-, rfl⟩ := Stage.got.inj hg
    exact hbody
  · rw [hserve] at ho
    cases ho with
    | got hg =>
        obtain ⟨-, rfl⟩ := Stage.got.inj hg
        exact absurd rfl (hnot _)
  · exact h.not_owed hlive hop (by rw [hserve]; simp) hv hv0
  · have hexp := h.notify v hv
    rw [hserve] at hexp
    simp [expecting] at hexp

/-- A reply arrives at the client that waits for it. -/
theorem deliver_reply {q : ℤ} {m : Msg B} {r : Request} {k : Kont B}
    (h : Serving env mode st pr n) (hap : pr.act p = .reply q m) (hp : ¬ NotSent (st p))
    (hq : st q = .waitRecv ∨ st q = .recvCall) (ha : pr.act q = .await r k) (hr : p = r.server)
    (hm : m = ⟨env.answer r, pr.tag q⟩) :
    Serving env mode (update st q (.got p m)) pr n := by
  obtain ⟨hne, hlive, hop⟩ := h.of_receiving hq
  refine h.receive hq ⟨hop, (h.loc q hne).fits, ?_, ?_, (h.loc q hne).atomic⟩ (fun c t ho => ?_)
    (fun v t hv hd hu ho => ?_) fun h1 v hv => ?_
  · rintro s m' r' k' hg ha'
    obtain ⟨rfl, rfl⟩ := Stage.got.inj hg
    obtain ⟨rfl, -⟩ := Act.await.inj (ha.symm.trans ha')
    exact ⟨hr, hm⟩
  · intro s m' hg ha'
    rw [ha] at ha'
    simp at ha'
  · rw [ha] at ho ⊢
    cases ho with
    | await => exact .await
  · -- nobody else owes it a reply
    obtain hd' | ⟨r', hr', ⟨-, ⟨k', ha', -⟩ | ⟨k', ha', -⟩⟩, -⟩ := h.debt v q t hd hu ho
    · exact hlive hd'
    · rw [ha] at ha'
      simp at ha'
    · obtain ⟨rfl, -⟩ := Act.await.inj (ha.symm.trans ha')
      obtain rfl : v = p := hr'.trans hr.symm
      rw [hap] at ho
      cases ho with
      | reply hn => exact hp hn
  · subst h1
    have hexp := h.notify v hv
    rw [ha] at hexp
    simp [expecting] at hexp

/-- A notification arrives at `sys_proc`, which waits for it. -/
theorem deliver_notification {m : Msg B} (h : Serving env mode st pr n) (hp : ¬ NotSent (st p))
    (h1 : st GPID_PROCESS = .waitRecv ∨ st GPID_PROCESS = .recvCall)
    (hexp : expecting (st GPID_PROCESS) (pr.act GPID_PROCESS) = some p) :
    Serving env mode (update st GPID_PROCESS (.got p m)) pr n := by
  obtain ⟨hne, hlive, hop⟩ := h.of_receiving h1
  have hfit := (h.loc GPID_PROCESS hne).fits
  obtain ⟨k, ha⟩ : ∃ k, pr.act GPID_PROCESS = .sysWait k := by
    rcases recv_cases hfit hop with ha | ⟨r', k', ha⟩ | ⟨k', ha, -⟩ | ⟨-, h4⟩
    · rw [ha] at hexp
      simp [expecting] at hexp
    · rw [ha] at hexp
      simp [expecting] at hexp
    · exact ⟨k', ha⟩
    · exact absurd h4 (by decide)
  refine h.receive h1 ⟨hop, hfit, ?_, ?_, (h.loc _ hne).atomic⟩ (fun c t ho => ?_)
    (fun v t _ hd hu => ?_) fun _ v hv => ?_
  · intro s m' r' k' _ ha'
    rw [ha] at ha'
    simp at ha'
  · intro s m' _ ha'
    rw [ha] at ha'
    simp at ha'
  · rw [ha] at ho
    cases ho
  · exact h.not_owed hlive hop (by rw [ha]; simp) hd hu
  · -- there is no other notification to come
    have hexp' := h.notify v hv
    rw [hexp] at hexp'
    obtain rfl := Option.some.inj hexp'
    exact absurd hv.2.1 hp

/-- What the shell may wait for. -/
theorem shell_recv (h : Serving env mode st pr n) (hne : st GPID_SHELL ≠ .unborn)
    (hop : (pr.act GPID_SHELL).op mode (pr.tag GPID_SHELL) = .recv) :
    (∃ cmd, pr.act GPID_SHELL = .awaitReply cmd) ∨ pr.act GPID_SHELL = .awaitExit := by
  have hfit := (h.loc GPID_SHELL hne).fits
  rcases recv_cases hfit hop with ha | ⟨r, k, ha⟩ | ⟨k, -, h1⟩ | ⟨ha, -⟩
  · rw [ha] at hfit
    exact absurd (show (4 : ℤ) = 1 ∨ (4 : ℤ) = 2 ∨ (4 : ℤ) = 3 from hfit) (by decide)
  · rw [ha] at hfit
    exact absurd rfl (call_fits hfit).2.1
  · exact absurd h1 (by decide)
  · exact ha

/-- A message arrives at the shell. -/
theorem deliver_shell {m : Msg B} (h : Serving env mode st pr n)
    (h4 : st GPID_SHELL = .waitRecv ∨ st GPID_SHELL = .recvCall) :
    Serving env mode (update st GPID_SHELL (.got p m)) pr n := by
  obtain ⟨hne, hlive, hop⟩ := h.of_receiving h4
  have hshell := h.shell_recv hne hop
  refine h.receive h4 ⟨hop, (h.loc _ hne).fits, ?_, ?_, (h.loc _ hne).atomic⟩ (fun c t ho => ?_)
    (fun v t _ hd hu => ?_) fun h1 => absurd h1 (by decide)
  · intro s m' r' k' _ ha'
    rw [ha'] at hshell
    simp at hshell
  · intro s m' _ ha'
    rw [ha'] at hshell
    simp at hshell
  · generalize pr.act GPID_SHELL = b at hshell ho
    rcases hshell with ⟨cmd, rfl⟩ | rfl <;> cases ho
  · refine h.not_owed hlive hop (fun r k ha => ?_) hd hu
    rw [ha] at hshell
    simp at hshell

/-- **A message changes hands.** -/
theorem deliver {q : ℤ} {m : Msg B} (h : Serving env mode st pr n)
    (hp : st p = .sendCall q m ∨ st p = .waitSend q m) (hq : st q = .waitRecv ∨ st q = .recvCall)
    (hfair : q = GPID_PROCESS ∨ q = GPID_DIR → ∀ r k, pr.act q = .await r k → p = r.server) :
    Serving env mode (update (update st p (.sent q m true)) q (.got p m))
      pr n := by
  obtain ⟨hpne, hplive, hpsent, hop⟩ := h.of_sending hp
  obtain ⟨hqne, hqlive, hopq⟩ := h.of_receiving hq
  have hpq : p ≠ q := by
    rintro rfl
    rcases hp with hp | hp <;> rcases hq with hq | hq <;> rw [hp] at hq <;> simp at hq
  have hfitp := (h.loc p hpne).fits
  have hfitq := (h.loc q hqne).fits
  -- the sender goes first
  have h₁ := h.sender hp true
  generalize hst₁ : update st p (.sent q m true) = st₁ at h₁ ⊢
  have hpst₁ : st₁ p = .sent q m true := by rw [← hst₁, update_self]
  have hqst₁ : st₁ q = st q := by rw [← hst₁, update_of_ne hpq.symm]
  have hq₁ : st₁ q = .waitRecv ∨ st₁ q = .recvCall := by rwa [hqst₁]
  have hpne₁ : st₁ p ≠ .unborn := by rw [hpst₁]; simp
  have hpsent₁ : ¬ NotSent (st₁ p) := by rw [hpst₁]; exact fun hn => hn
  cases hap : pr.act p with
  | call r k =>
      rw [hap] at hop hfitp
      obtain ⟨-, rfl, rfl⟩ := Act.op_call_send hop
      obtain ⟨hp2, -, -⟩ := call_fits hfitp
      refine h₁.deliver_request hap hpsent₁ hpq rfl hq₁ ?_
      rcases recv_cases hfitq hopq with ha | ⟨r', k', ha⟩ | ⟨k', -, h1⟩ | ⟨-, h4⟩
      · exact ha
      · -- `sys_dir` waits for a block, and gets a request
        rw [ha] at hfitq
        obtain ⟨hq2, -, hq3⟩ := call_fits hfitq
        have h3 : r.server = 3 := (server_eq r).resolve_left hq2
        rw [hfair (Or.inr h3) r' k' ha, hq3 h3] at hp2
        exact absurd rfl hp2
      · have h1' : r.server = 1 := h1
        rcases server_eq r with h2 | h3 <;> omega
      · have h4' : r.server = 4 := h4
        rcases server_eq r with h2 | h3 <;> omega
  | reply c m' =>
      have hop' := hop
      rw [hap] at hop'
      obtain ⟨rfl, rfl⟩ := Op.send.inj hop'
      have ho : Owes (st p) (pr.act p) c m'.tag := by
        rw [hap]
        exact .reply hpsent
      obtain hd | ⟨r, hr, haw, hprom⟩ := h.debt p c m'.tag hplive hpne ho
      · exact absurd hd hqlive
      rw [hap] at hprom
      -- the client waits for this reply
      obtain ⟨htag, ⟨k, ha, -⟩ | ⟨k, ha, -⟩⟩ := haw
      · rw [ha] at hopq
        exact absurd hopq Act.op_call_ne_recv
      refine h₁.deliver_reply hap hpsent₁ hq₁ ha hr ?_
      rw [← htag, ← show m'.body = env.answer r from hprom]
  | notify =>
      rw [hap] at hop
      obtain ⟨rfl, rfl⟩ := Op.send.inj hop
      have hexp := h.notify p ⟨hap, hpsent, hplive, hpne⟩
      rw [← hqst₁] at hexp
      exact h₁.deliver_notification hpsent₁ hq₁ hexp
  | exit =>
      rw [hap] at hop hfitp
      obtain ⟨rfl, rfl⟩ := Op.send.inj hop
      have hp5 : p ≥ 5 := hfitp
      exact h₁.deliver_proc hpne₁ (by omega) rfl hq₁ (hfair (Or.inl rfl))
  | command | killall =>
      rw [hap] at hop hfitp
      obtain ⟨rfl, rfl⟩ := Op.send.inj hop
      have hp4 : p = 4 := hfitp
      exact h₁.deliver_proc hpne₁ (by omega) rfl hq₁ (hfair (Or.inl rfl))
  | spawned | exited =>
      rw [hap] at hop
      obtain ⟨rfl, rfl⟩ := Op.send.inj hop
      exact h₁.deliver_shell hq₁
  | _ =>
      rw [hap] at hop
      simp [Act.op] at hop

end Serving

end Egos
