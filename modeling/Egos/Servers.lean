/-
**Calls of the servers and their replies.**

`dir_lookup` and `file_read` send a request and take the next message that they receive for the
reply; they check its sender, and nothing else.  For a user application this is enough: nobody but a
server ever sends to it, and a server sends to it only the reply to the request that it waits
for.  But `sys_proc` and `sys_dir` are servers themselves, and the next message may be a request of
somebody else, upon which they end in `FATAL`.

If no such request reaches `sys_proc` or `sys_dir` while they wait for a reply, then every call gets
the reply to its own request, and no check fails.

Main definitions:

* `Egos.World.Undisturbed` — the condition on the moves of a run.

Main results:

* `Egos.Serving.step` — every step keeps the invariant;
* `Egos.replies_match` — **every call gets its own reply in a run without disturbances**;
* `Egos.reply_mistaken` — a run in which `sys_proc` takes `PROC_EXIT` for a reply.
-/

import Egos.Serving
import Egos.Runs

set_option autoImplicit false

namespace Egos

open Function (update update_eq_self update_of_ne update_self)
open Rendezvous (Stage Ev Step)

variable {B : Type}

namespace Serving

variable {env : Env B} {mode : Mode} {st : ℤ → Stage ℤ (Msg B)} {pr pr' : Progs B} {n : ℕ} {p : ℤ}
  {x : Stage ℤ (Msg B)} {a : Act B}

/-! ### The steps -/

/-- The traps that do not disturb `sys_proc` and `sys_dir`. -/
def Fair (pr : Progs B) : Ev ℤ (Msg B) → Prop
  | .give p q _ | .take p q _ =>
      q = GPID_PROCESS ∨ q = GPID_DIR → ∀ r k, pr.act q = .await r k → p = r.server
  | .fail _ | .block _ | .wait _ => True
  | _ => False

theorem trap {e : Ev ℤ (Msg B)} {st' : ℤ → Stage ℤ (Msg B)} (h : Serving env mode st pr n)
    (hs : Step st e st') (hfair : Fair pr e) : Serving env mode st' pr n := by
  cases hs with
  | fail hp _ => exact h.sender (Or.inl hp) false
  | give hp hq => exact h.deliver (Or.inl hp) (Or.inl hq) hfair
  | take hq hp => exact h.deliver (Or.inr hp) (Or.inr hq) hfair
  | @block p q m hp _ =>
      have hst := (h.loc p (by rw [hp]; simp)).stage
      rw [hp] at hst
      refine h.setStage (by rw [hp]; simp) (by rw [hp]; simp) (by simp) (by simp)
        (by rw [hp]; simp) (by simp) hst (fun _ => by rw [hp]; trivial) fun t r haw => ?_
      rw [hp] at haw
      obtain ⟨-, ⟨k, -, hs⟩ | ⟨k, -, hs⟩⟩ := haw
      · exact absurd trivial hs
      · simp at hs
  | @wait q hq _ =>
      have hst := (h.loc q (by rw [hq]; simp)).stage
      rw [hq] at hst
      refine h.setStage (by rw [hq]; simp) (by rw [hq]; simp) (by simp) (by simp)
        (by rw [hq]; simp) (by simp) hst (fun _ => by rw [hq]; trivial) fun t r haw => ?_
      rw [hq] at haw
      obtain ⟨ht, ⟨k, -, hs⟩ | ⟨k, ha, -⟩⟩ := haw
      · exact absurd trivial hs
      · exact ⟨ht, Or.inr ⟨k, ha, Or.inr (Or.inr rfl)⟩⟩
  | sysSend | sysRecv | retSend | retRecv | spawn | ready | kill => exact hfair.elim

theorem send {q : ℤ} {m : Msg B} (h : Serving env mode st pr n) (hp : st p = .user)
    (hop : pr.op p mode = .send q m) :
    Serving env mode (update st p (.sendCall q m)) (pr.note p) n := by
  have hnote : (pr.note p).act = pr.act ∧ (pr.note p).calls = pr.calls := by
    rw [Progs.note]
    split <;> exact ⟨rfl, rfl⟩
  refine Serving.congr ?_ hnote.1 hnote.2
  refine h.setStage (by rw [hp]; simp) (by rw [hp]; simp) (by simp) (by simp) (by rw [hp]; simp)
    (by simp) hop (fun _ => by rw [hp]; trivial) fun t r haw => ?_
  rw [hp] at haw
  obtain ⟨-, ⟨k, -, hs⟩ | ⟨k, ha, -⟩⟩ := haw
  · exact absurd trivial hs
  · rw [Progs.op, ha] at hop
    simp [Act.op] at hop

theorem recv (h : Serving env mode st pr n) (hp : st p = .user) (hop : pr.op p mode = .recv) :
    Serving env mode (update st p .recvCall) pr n := by
  refine h.setStage (by rw [hp]; simp) (by rw [hp]; simp) (by simp) (by simp) (by rw [hp]; simp)
    (by simp) hop (fun _ => by rw [hp]; trivial) fun t r haw => ?_
  rw [hp] at haw
  obtain ⟨ht, ⟨k, -, hs⟩ | ⟨k, ha, -⟩⟩ := haw
  · exact absurd trivial hs
  · exact ⟨ht, Or.inr ⟨k, ha, Or.inr (Or.inl rfl)⟩⟩

/-- A process that is not inside a call of the kernel, or leaves one, goes on with its program. -/
theorem goOn (h : Serving env mode st pr n) (hp : st p ≠ .unborn) (hlive : st p ≠ .dead)
    (hact : pr'.act = update pr.act p a) (hcalls : ∀ q, q ≠ p → pr'.calls q = pr.calls q)
    (hfits : a.Fits p) (hnot : a ≠ .notify) (hatom : mode = .atomic → ∀ r k, a ≠ .await r k)
    (hdebt : ∀ c t, Owes .user a c t → Owes (st p) (pr.act p) c t ∧
      ∀ r, p = r.server → Promise env (st p) r (pr.act p) → Promise env .user r a)
    (hwait : ∀ t r, Awaits (st p) (pr.act p) (pr.tag p) t r → Awaits .user a (pr'.tag p) t r)
    (hone : p = GPID_PROCESS → BootCount n a ∧ ∀ q, Notifier (st q) (pr.act q) →
      expecting .user a = some q) :
    Serving env mode (update st p .user) pr' n :=
  h.keep hp hlive (by simp) hact hcalls
    ⟨trivial, hfits, fun _ _ _ _ hg => absurd hg (by simp), fun _ _ hg => absurd hg (by simp),
      hatom⟩ hdebt
    (fun _ t r _ _ _ _ _ => hwait t r) (fun hn => absurd hn.1 hnot) hone

theorem retSend {q : ℤ} {m : Msg B} {ok : Bool} (h : Serving env mode st pr n)
    (hp : st p = .sent q m ok) :
    Serving env mode (update st p .user) (pr.setAct p (pr.act p).afterSend) n := by
  have hne : st p ≠ .unborn := by rw [hp]; simp
  have hop := (h.loc p hne).stage
  rw [hp] at hop
  have hop' : (pr.act p).op mode (pr.tag p) = .send q m := hop
  have hfits := (h.loc p hne).fits
  refine h.goOn (a := (pr.act p).afterSend) hne (by rw [hp]; simp) rfl (fun _ _ => rfl)
    (Act.fits_afterSend hfits) ?_ (fun hm r k ha => ?_) (fun c t ho => ?_)
    (fun t r haw => ?_) fun h1 => ?_
  · cases ha : pr.act p <;> rw [ha] at hop' <;> simp [Act.op, Act.afterSend] at hop' ⊢
  · -- a request has been sent
    cases hact : pr.act p with
    | call r' k' =>
        rw [hact] at hop'
        rw [(Act.op_call_send hop').1] at hm
        simp at hm
    | _ =>
        rw [hact] at hop' ha
        simp [Act.op, Act.afterSend] at hop' ha
  · cases ha : pr.act p with
    | call r k =>
        rw [ha] at ho
        cases ho with
        | await => exact ⟨.call, fun r _ hprom => hprom⟩
    | reply | notify | exit | command | killall | spawned | exited =>
        rw [ha] at ho
        cases ho <;> simp_all
    | _ =>
        rw [ha] at hop'
        simp [Act.op] at hop'
  · obtain ⟨ht, ⟨k, ha, -⟩ | ⟨k, ha, hs⟩⟩ := haw
    · refine ⟨ht, Or.inr ⟨k, ?_, Or.inl rfl⟩⟩
      rw [ha]
      rfl
    · rw [hp] at hs
      simp at hs
  · subst h1
    refine ⟨?_, fun q hq => ?_⟩
    · have hboot := h.boot
      cases ha : pr.act GPID_PROCESS <;> rw [ha] at hboot <;> exact hboot
    · have hexp := h.notify q hq
      cases ha : pr.act GPID_PROCESS <;> rw [ha] at hop' hexp <;>
        simp [Act.op, expecting] at hop' hexp

/-- The process goes on with something that is neither owed to anybody nor part of the start of the
system. -/
theorem goPlain (h : Serving env mode st pr n) (hp : st p ≠ .unborn) (hlive : st p ≠ .dead)
    (hact : pr'.act = update pr.act p a) (hcalls : ∀ q, q ≠ p → pr'.calls q = pr.calls q)
    (hfits : a.Fits p) (hplain : a.Plain)
    (hwait : ∀ t r, ¬ Awaits (st p) (pr.act p) (pr.tag p) t r)
    (hone : p = GPID_PROCESS → expecting (st p) (pr.act p) = none ∧ 4 ≤ n) :
    Serving env mode (update st p .user) pr' n := by
  refine h.goOn hp hlive hact hcalls hfits hplain.ne_notify (fun _ => hplain.ne_await)
    (fun c t ho => absurd ho (hplain.not_owes c t)) (fun t r haw => absurd haw (hwait t r))
    fun h1 => ⟨hplain.boot (hone h1).2, fun q hq => ?_⟩
  have hexp := h.notify q hq
  subst h1
  rw [(hone rfl).1] at hexp
  simp at hexp

/-- Nobody waits for a reply that has arrived. -/
theorem not_awaits_got {s : ℤ} {m : Msg B} (hp : st p = .got s m)
    (hop : (pr.act p).op mode (pr.tag p) = .recv) {t : ℤ × ℕ} {r : Request} :
    ¬ Awaits (st p) (pr.act p) (pr.tag p) t r := by
  rintro ⟨-, ⟨k, ha, -⟩ | ⟨k, -, hs⟩⟩
  · rw [ha] at hop
    exact Act.op_call_ne_recv hop
  · rw [hp] at hs
    simp at hs

/-- A call of `dir_lookup` or `file_read` ends with its reply, and the caller goes on. -/
theorem completed {r : Request} {k : Kont B} (h : Serving env mode st pr n) (hp : st p ≠ .unborn)
    (hlive : st p ≠ .dead) (ha : pr.act p = .call r k ∨ pr.act p = .await r k)
    (hwait : ∀ t r', ¬ Awaits (st p) (pr.act p) (pr.tag p) t r') :
    Serving env mode (update st p .user)
      (pr.completed p (Act.resume env k (env.answer r))) n := by
  have hfits : k.Fits p r := by
    have hf := (h.loc p hp).fits
    rcases ha with ha | ha <;> rwa [ha] at hf
  have hone : p = GPID_PROCESS → expecting (st p) (pr.act p) = none ∧ 4 ≤ n := by
    rintro rfl
    have hboot := h.boot
    rcases ha with ha | ha <;> rw [ha] at hboot ⊢ <;> exact ⟨rfl, hboot⟩
  have hcalls : ∀ q, q ≠ p →
      (pr.completed p (Act.resume env k (env.answer r))).calls q = pr.calls q :=
    fun q hq => update_of_ne hq _ _
  rcases Act.resume_cases hfits with ⟨c, t, name, ino, rfl, rfl⟩ | hplain
  · -- `sys_dir` has read the block, and replies
    refine h.goOn (a := .reply c ⟨env.answer (.dirLookup ino name), t⟩) hp hlive rfl hcalls
      (Act.fits_resume hfits) (by simp) (by simp) (fun c' t' ho => ?_)
      (fun t r' haw => absurd haw (hwait t r')) fun h1 => ?_
    · cases ho with
      | reply =>
          have hprom : ∀ r', (∃ ino', Request.fileRead ino 0 = .fileRead ino' 0 ∧
              r' = .dirLookup ino' name) → env.answer (.dirLookup ino name) = env.answer r' := by
            rintro r' ⟨ino', hino, rfl⟩
            obtain ⟨rfl, -⟩ := Request.fileRead.inj hino
            rfl
          rcases ha with ha | ha <;> rw [ha]
          · exact ⟨.call, fun r' _ => hprom r'⟩
          · exact ⟨.await, fun r' _ => hprom r'⟩
    · obtain ⟨hp3, -⟩ := hfits
      exact absurd (h1.symm.trans hp3) (by decide)
  · exact h.goPlain hp hlive rfl hcalls (Act.fits_resume hfits) hplain hwait hone

/-- A reply arrives at its caller, which goes on. -/
theorem retAwait {s : ℤ} {m : Msg B} {r : Request} {k : Kont B} (h : Serving env mode st pr n)
    (hp : st p = .got s m) (ha : pr.act p = .await r k) :
    Serving env mode (update st p .user) (pr.received env p s m) n := by
  have hne : st p ≠ .unborn := by rw [hp]; simp
  have hop := (h.loc p hne).stage
  rw [hp] at hop
  obtain ⟨rfl, rfl⟩ := (h.loc p hne).got s m r k hp ha
  have hrec : pr.received env p r.server ⟨env.answer r, pr.tag p⟩ =
      pr.completed p (Act.resume env k (env.answer r)) := by
    simp [Progs.received, ha, Act.afterRecv]
  rw [hrec]
  exact h.completed hne (by rw [hp]; simp) (Or.inr ha) fun t r' => not_awaits_got hp hop

/-- A call is answered at once. -/
theorem answer (h : Serving env mode st pr n) (hp : st p = .user) (hop : pr.op p mode = .answer) :
    Serving env mode st (pr.answered env p) n := by
  have hne : st p ≠ .unborn := by rw [hp]; simp
  rw [Progs.op] at hop
  cases ha : pr.act p with
  | call r k =>
      have hans : pr.answered env p = pr.completed p (Act.resume env k (env.answer r)) := by
        simp [Progs.answered, ha]
      have hst : update st p .user = st := by rw [← hp, update_eq_self]
      rw [hans, ← hst]
      refine h.completed hne (by rw [hp]; simp) (Or.inl ha) ?_
      rintro t r' ⟨-, ⟨k', -, hs⟩ | ⟨k', ha', -⟩⟩
      · rw [hp] at hs
        exact hs trivial
      · rw [ha] at ha'
        simp at ha'
  | _ =>
      rw [ha] at hop
      simp [Act.op] at hop

/-- A server takes a request. -/
theorem retServe {s : ℤ} {m : Msg B} (h : Serving env mode st pr n) (hp : st p = .got s m)
    (ha : pr.act p = .serve) :
    Serving env mode (update st p .user) (pr.received env p s m) n := by
  have hne : st p ≠ .unborn := by rw [hp]; simp
  have hlive : st p ≠ .dead := by rw [hp]; simp
  obtain ⟨hop, -, -, hproper⟩ := h.loc p hne
  rw [hp] at hop
  have hm := hproper s m hp ha
  have hwait : ∀ t r', ¬ Awaits (st p) (pr.act p) (pr.tag p) t r' := fun t r' =>
    not_awaits_got hp hop
  have hone : p = GPID_PROCESS → expecting (st p) (pr.act p) = none ∧ 4 ≤ n := by
    rintro rfl
    have hboot := h.boot
    rw [ha] at hboot ⊢
    exact ⟨rfl, hboot⟩
  have hrec : (pr.received env p s m).act = update pr.act p (Act.handle env p s m) ∧
      (pr.received env p s m).calls = pr.calls := by
    simp [Progs.received, ha, Act.afterRecv, Progs.setAct]
  suffices hset : Serving env mode (update st p .user)
      (pr.setAct p (Act.handle env p s m)) n
    from hset.congr hrec.1 hrec.2
  obtain ⟨body, tag⟩ := m
  cases body with
  | request r =>
      have hpr : p = r.server := hm
      refine h.goOn (a := Act.handle env p s ⟨.request r, tag⟩) hne hlive rfl (fun _ _ => rfl)
        (Act.fits_handle hm) ?_ ?_ (fun c t ho => ?_) (fun t r' haw => absurd haw (hwait t r'))
        fun h1 => ?_
      · cases r with
        | fileRead =>
            subst hpr
            change Act.reply _ _ ≠ .notify
            simp
        | dirLookup =>
            subst hpr
            change Act.call _ _ ≠ .notify
            simp
      · cases r with
        | fileRead =>
            subst hpr
            exact fun _ r k => (by simp : Act.reply _ _ ≠ Act.await r k)
        | dirLookup =>
            subst hpr
            exact fun _ r k => (by simp : Act.call _ _ ≠ Act.await r k)
      · rw [ha, hp]
        cases r with
        | fileRead ino offset =>
            subst hpr
            cases ho with
            | reply =>
                refine ⟨.got rfl, fun r' _ hprom => ?_⟩
                obtain ⟨c, t, hg⟩ := hprom
                obtain ⟨-, hg⟩ := Stage.got.inj hg
                obtain ⟨hg, -⟩ := Msg.mk.inj hg
                obtain rfl := Body.request.inj hg
                rfl
        | dirLookup ino name =>
            subst hpr
            cases ho with
            | call =>
                refine ⟨.got rfl, fun r' _ hprom => ?_⟩
                obtain ⟨c, t, hg⟩ := hprom
                obtain ⟨-, hg⟩ := Stage.got.inj hg
                obtain ⟨hg, -⟩ := Msg.mk.inj hg
                obtain rfl := Body.request.inj hg
                exact ⟨ino, rfl, rfl⟩
      · have hr1 : r.server = 1 := hpr.symm.trans h1
        rcases server_eq r with h2 | h3 <;> omega
  | spawn | exit | killall =>
      have h1 : p = GPID_PROCESS := hm
      subst h1
      exact h.goPlain hne hlive rfl (fun _ _ => rfl) (Act.fits_handle hm)
        (by simp [Act.handle, Act.Plain]) hwait hone
  | finish | procReply | fileReply | dirReply => exact hm.elim

theorem retRecv {s : ℤ} {m : Msg B} (h : Serving env mode st pr n) (hp : st p = .got s m) :
    Serving env mode (update st p .user) (pr.received env p s m) n := by
  have hne : st p ≠ .unborn := by rw [hp]; simp
  have hlive : st p ≠ .dead := by rw [hp]; simp
  obtain ⟨hop, hfits, -, -⟩ := h.loc p hne
  rw [hp] at hop
  have hwait : ∀ t r', ¬ Awaits (st p) (pr.act p) (pr.tag p) t r' := fun t r' =>
    not_awaits_got hp hop
  rcases recv_cases hfits hop with ha | ⟨r, k, ha⟩ | ⟨k, ha, rfl⟩ | ⟨ha, rfl⟩
  · exact h.retServe hp ha
  · exact h.retAwait hp ha
  · -- `sys_proc` has got a notification
    have hrec : pr.received env GPID_PROCESS s m = pr.setAct GPID_PROCESS (.sysAlloc (k + 1)) := by
      simp [Progs.received, ha, Act.afterRecv]
    rw [hrec]
    refine h.goOn (a := .sysAlloc (k + 1)) hne hlive rfl (fun _ _ => rfl) rfl (by simp) (by simp)
      (fun c t ho => by cases ho) (fun t r' haw => absurd haw (hwait t r'))
      fun _ => ⟨?_, fun q hq => ?_⟩
    · have hboot := h.boot
      rw [ha] at hboot
      obtain ⟨hn, hk⟩ := hboot
      exact ⟨by omega, by omega⟩
    · have hexp := h.notify q hq
      rw [ha, hp] at hexp
      simp [expecting] at hexp
  · have hrec : ∃ b, pr.received env GPID_SHELL s m = pr.setAct GPID_SHELL b ∧
        (b = .awaitExit ∨ b = .prompt) := by
      rcases ha with ⟨cmd, ha⟩ | ha
      · simp only [Progs.received, ha, Act.afterRecv]
        split
        · split
          · exact ⟨_, rfl, Or.inl rfl⟩
          · exact ⟨_, rfl, Or.inr rfl⟩
        · exact ⟨_, rfl, Or.inr rfl⟩
      · simp only [Progs.received, ha, Act.afterRecv]
        exact ⟨_, rfl, Or.inr rfl⟩
    obtain ⟨b, hb, hcases⟩ := hrec
    rw [hb]
    refine h.goPlain hne hlive rfl (fun _ _ => rfl) ?_ ?_ hwait fun h1 => absurd h1 (by decide)
    · rcases hcases with rfl | rfl <;> rfl
    · rcases hcases with rfl | rfl <;> trivial

theorem choose {c : Choice} (h : Serving env mode st pr n) (hp : st p = .user)
    (hc : (pr.act p).choose c = some a) : Serving env mode st (pr.setAct p a) n := by
  have hne : st p ≠ .unborn := by rw [hp]; simp
  have hfits := (h.loc p hne).fits
  have hst : update st p .user = st := by rw [← hp, update_eq_self]
  rw [← hst]
  refine h.goPlain hne (by rw [hp]; simp) rfl (fun _ _ => rfl) (Act.fits_choose hfits hc) ?_ ?_ ?_
  · cases hact : pr.act p <;> cases c <;> rw [hact] at hc <;>
      simp only [Act.choose, Option.some.injEq, reduceCtorEq] at hc <;> subst hc <;> trivial
  · rintro t r ⟨-, ⟨k, -, hs⟩ | ⟨k, ha, -⟩⟩
    · rw [hp] at hs
      exact hs trivial
    · rw [ha] at hc
      simp [Act.choose] at hc
  · rintro rfl
    -- `sys_proc` never has a choice
    rcases Act.choose_cases hc with ha | ha <;> rw [ha] at hfits
    · exact absurd (show (1 : ℤ) ≥ 5 from hfits) (by decide)
    · exact absurd (show (1 : ℤ) = 4 from hfits) (by decide)

/-- Processes are killed. -/
theorem kill (h : Serving env mode st pr n) {gone : ℤ → Bool}
    (hgone : ∀ q, gone q = true → st q ≠ .unborn)
    (h1 : gone GPID_PROCESS = false) :
    Serving env mode (fun q => if gone q then .dead else st q) pr n := by
  have hlive : ∀ q, (if gone q = true then (.dead : Stage ℤ (Msg B)) else st q) ≠ .dead →
      gone q = false := by
    intro q hq
    by_contra hg
    exact hq (if_pos (by simpa using hg))
  refine ⟨fun q => ?_, fun q hq => ?_, fun v c t hv hv0 ho => ?_, h.boot, fun q hq => ?_⟩
  · rw [← h.born q]
    by_cases hg : gone q = true
    · rw [if_pos hg]
      exact ⟨fun he => absurd he (by simp), fun he => absurd he (hgone q hg)⟩
    · rw [if_neg hg]
  · by_cases hg : gone q = true
    · rw [if_pos hg]
      exact ⟨trivial, (h.loc q (hgone q hg)).fits, fun _ _ _ _ he => absurd he (by simp),
        fun _ _ he => absurd he (by simp), (h.loc q (hgone q hg)).atomic⟩
    · rw [if_neg hg] at hq ⊢
      exact h.loc q hq
  · have hgv := hlive v hv
    simp only [hgv, Bool.false_eq_true, if_false] at hv hv0 ho ⊢
    by_cases hg : gone c = true
    · exact Or.inl (if_pos hg)
    · rw [if_neg hg]
      exact h.debt v c t hv hv0 ho
  · have hgq := hlive q hq.2.2.1
    simp only [hgq, h1, Bool.false_eq_true, if_false] at hq ⊢
    exact h.notify q hq

theorem free {pid : ℤ} (h : Serving env mode st pr n) (hp : st GPID_PROCESS = .user)
    (hop : pr.op GPID_PROCESS mode = .free pid) (hpid : pid ≠ GPID_PROCESS) :
    Serving env mode (fun q => if Sys.goneBy st pid q then .dead else st q)
      (pr.freed GPID_PROCESS pid) n := by
  have h1 : Sys.goneBy st pid GPID_PROCESS = false := by
    by_cases hm : pid = -1
    · rw [Sys.goneBy, if_pos hm, decide_eq_false (by decide), Bool.false_and]
    · simp [Sys.goneBy, hm, Ne.symm hpid]
  have hk := @Serving.kill B env mode st pr n h (Sys.goneBy st pid)
    (fun q hq he => by simp [Sys.goneBy, he] at hq) h1
  have ha : pr.act GPID_PROCESS = .procFree pid := by
    rw [Progs.op] at hop
    cases ha : pr.act GPID_PROCESS <;> rw [ha] at hop <;> cases mode <;> simp [Act.op] at hop ⊢ <;>
      exact hop
  generalize hst : (fun q => if Sys.goneBy st pid q then .dead else st q) = st' at hk ⊢
  have hst1 : st' GPID_PROCESS = .user := by
    simp only [← hst, h1, Bool.false_eq_true, if_false]
    exact hp
  have hupd : update st' GPID_PROCESS .user = st' := by
    rw [← hst1, update_eq_self]
  rw [← hupd]
  refine hk.goPlain (by rw [hst1]; simp) (by rw [hst1]; simp) rfl (fun _ _ => rfl) ?_ ?_ ?_ ?_
  · split
    · rfl
    · exact Or.inl rfl
  · split <;> trivial
  · rintro t r ⟨-, ⟨k, hk', -⟩ | ⟨k, hk', -⟩⟩ <;> simp [ha] at hk'
  · intro _
    have hboot := h.boot
    rw [ha] at hboot ⊢
    exact ⟨rfl, hboot⟩

/-- A process is created, and `sys_proc` goes on. -/
theorem spawn (h : Serving env mode st pr n) (h1 : st GPID_PROCESS = .user)
    (hnew : st ((n : ℤ) + 1) = .unborn)
    (hact : pr'.act = update (update pr.act ((n : ℤ) + 1)
      (.start ((n : ℤ) + 1))) GPID_PROCESS a) (hcalls : pr'.calls = pr.calls)
    (hfits : a.Fits GPID_PROCESS) (hdebt : ∀ c t, ¬ Owes .user a c t) (hboot : BootCount (n + 1) a)
    (hnot : a ≠ .notify) (hnoawait : ∀ r k, a ≠ .await r k)
    (hwait : ∀ t r, ¬ Awaits .user (pr.act GPID_PROCESS) (pr.tag GPID_PROCESS) t r)
    (hexp : expecting .user (pr.act GPID_PROCESS) = none)
    (hnotify : (.start ((n : ℤ) + 1) : Act B) = .notify → expecting .user a = some ((n : ℤ) + 1)) :
    Serving env mode (update st ((n : ℤ) + 1) .loading) pr' (n + 1) := by
  have hne1 : GPID_PROCESS ≠ (n : ℤ) + 1 := by
    intro he
    rw [← he, h1] at hnew
    simp at hnew
  have hn1 : 1 ≤ n := by
    by_contra hlt
    have := (h.born GPID_PROCESS).2 (Or.inr (by
      change (n : ℤ) < 1
      omega))
    rw [h1] at this
    simp at this
  have htag : pr'.tag = pr.tag := by
    funext q
    rw [Progs.tag, hcalls, Progs.tag]
  -- the new process owes nothing, and has made no calls
  have hstart : ∀ x : Stage ℤ (Msg B), ∀ c t, ¬ Owes x (.start ((n : ℤ) + 1)) c t := by
    intro x c t ho
    rw [Act.start] at ho
    split_ifs at ho <;> cases ho
  have hstartAwait : ∀ r k, (.start ((n : ℤ) + 1) : Act B) ≠ .await r k := by
    intro r k
    rw [Act.start]
    split_ifs <;> simp
  have hact1 : pr'.act GPID_PROCESS = a := by rw [hact, update_self]
  have hactn : pr'.act ((n : ℤ) + 1) = .start ((n : ℤ) + 1) := by
    rw [hact, update_of_ne hne1.symm, update_self]
  have hacto : ∀ q, q ≠ GPID_PROCESS → q ≠ (n : ℤ) + 1 → pr'.act q = pr.act q := fun q hq hq' => by
    rw [hact, update_of_ne hq, update_of_ne hq']
  refine ⟨fun q => ?_, fun q hq => ?_, fun v c t hv hv0 ho => ?_, ?_, fun q hq => ?_⟩
  · have hb := h.born q
    by_cases hq : q = (n : ℤ) + 1
    · subst hq
      rw [update_self]
      refine ⟨fun he => absurd he (by simp), fun he => ?_⟩
      push_cast at he
      omega
    · rw [update_of_ne hq, hb]
      push_cast
      omega
  · rw [htag]
    by_cases hqn : q = (n : ℤ) + 1
    · subst hqn
      rw [update_self, hactn]
      exact ⟨rfl, Act.fits_start (by omega), fun _ _ _ _ he => absurd he (by simp),
        fun _ _ he => absurd he (by simp), fun _ => hstartAwait⟩
    · rw [update_of_ne hqn] at hq ⊢
      by_cases hq1 : q = GPID_PROCESS
      · subst hq1
        rw [h1, hact1]
        exact ⟨trivial, hfits, fun _ _ _ _ he => absurd he (by simp),
          fun _ _ he => absurd he (by simp), fun _ => hnoawait⟩
      · rw [hacto q hq1 hqn]
        exact h.loc q hq
  · by_cases hvn : v = (n : ℤ) + 1
    · subst hvn
      rw [hactn] at ho
      exact absurd ho (hstart _ c t)
    · rw [update_of_ne hvn] at hv hv0 ho ⊢
      by_cases hv1 : v = GPID_PROCESS
      · subst hv1
        rw [hact1, h1] at ho
        exact absurd ho (hdebt c t)
      · rw [hacto v hv1 hvn] at ho ⊢
        have hd := h.debt v c t hv hv0 ho
        by_cases hcn : c = (n : ℤ) + 1
        · subst hcn
          rw [hnew] at hd
          obtain hd | ⟨r, -, ⟨-, ⟨k, -, hs⟩ | ⟨k, -, hs⟩⟩, -⟩ := hd
          · simp at hd
          · exact absurd trivial hs
          · simp at hs
        · rw [update_of_ne hcn, htag]
          by_cases hc1 : c = GPID_PROCESS
          · subst hc1
            rw [h1] at hd
            obtain hd | ⟨r, -, haw, -⟩ := hd
            · simp at hd
            · exact absurd haw (hwait t r)
          · rw [hacto c hc1 hcn]
            exact hd
  · rw [hact1]
    exact hboot
  · rw [update_of_ne hne1, h1, hact1]
    by_cases hqn : q = (n : ℤ) + 1
    · subst hqn
      rw [hactn] at hq
      exact hnotify hq.1
    · rw [update_of_ne hqn] at hq
      by_cases hq1 : q = GPID_PROCESS
      · subst hq1
        rw [hact1] at hq
        exact absurd hq.1 hnot
      · rw [hacto q hq1 hqn] at hq
        have he := h.notify q hq
        rw [h1, hexp] at he
        simp at he

theorem alloc (h : Serving env mode st pr n) (h1 : st GPID_PROCESS = .user)
    (hop : pr.op GPID_PROCESS mode = .alloc) (hnew : st ((n : ℤ) + 1) = .unborn) :
    Serving env mode (update st ((n : ℤ) + 1) .loading)
      (pr.allocated env GPID_PROCESS ((n : ℤ) + 1)) (n + 1) := by
  rw [Progs.op] at hop
  have hboot := h.boot
  cases ha : pr.act GPID_PROCESS with
  | sysAlloc k =>
      rw [ha] at hboot
      obtain ⟨rfl, hk⟩ := hboot
      refine h.spawn (a := .sysReady k ((k + 1 : ℕ) + 1)) h1 hnew ?_ ?_ rfl
        (fun c t ho => by cases ho) ⟨by omega, by push_cast; omega, hk⟩ (by simp) (by simp) ?_
        (by rw [ha]; rfl) fun _ => rfl
      · simp only [Progs.allocated, ha]
      · simp only [Progs.allocated, ha]
      · rintro t r ⟨-, ⟨k, hk', -⟩ | ⟨k, hk', -⟩⟩ <;> simp [ha] at hk'
  | appAlloc cmd ino =>
      rw [ha] at hboot
      have h4 : 4 ≤ n := hboot
      have hplain : (Act.loadNext env cmd ((n : ℤ) + 1) ino []).Plain := by
        rw [Act.loadNext]
        split <;> trivial
      refine h.spawn (a := Act.loadNext env cmd ((n : ℤ) + 1) ino []) h1 hnew ?_ ?_
        Act.fits_loadNext hplain.not_owes (hplain.boot (by omega)) hplain.ne_notify
        hplain.ne_await ?_ (by rw [ha]; rfl) fun hs => ?_
      · simp only [Progs.allocated, ha]
      · simp only [Progs.allocated, ha]
      · rintro t r ⟨-, ⟨k, hk', -⟩ | ⟨k, hk', -⟩⟩ <;> simp [ha] at hk'
      · have h23 : ¬ ((n : ℤ) + 1 = 2 ∨ (n : ℤ) + 1 = 3) := by omega
        rw [Act.start, if_neg h23] at hs
        split at hs <;> simp at hs
  | _ =>
      rw [ha] at hop
      cases mode <;> simp [Act.op] at hop

/-- A loaded process may run. -/
theorem ready {pid : ℤ} (h : Serving env mode st pr n) (h1 : st GPID_PROCESS = .user)
    (hop : pr.op GPID_PROCESS mode = .ready pid) (hpid : st pid = .loading) :
    Serving env mode (update st pid .user) (pr.readied GPID_PROCESS) n := by
  have hne : GPID_PROCESS ≠ pid := by
    rintro rfl
    rw [h1] at hpid
    simp at hpid
  have hk : Serving env mode (update st pid .user) pr n := by
    refine h.setStage (by rw [hpid]; simp) (by rw [hpid]; simp) (by simp) (by simp)
      (by rw [hpid]; simp) (by simp) trivial (fun _ => by rw [hpid]; trivial) fun t r haw => ?_
    rw [hpid] at haw
    obtain ⟨-, ⟨k, -, hs⟩ | ⟨k, -, hs⟩⟩ := haw
    · exact absurd trivial hs
    · simp at hs
  generalize hst : update st pid .user = st' at hk ⊢
  have hst1 : st' GPID_PROCESS = .user := by rw [← hst, update_of_ne hne, h1]
  have hne1 : st' GPID_PROCESS ≠ .unborn := by rw [hst1]; simp
  have hlive1 : st' GPID_PROCESS ≠ .dead := by rw [hst1]; simp
  have hupd : update st' GPID_PROCESS .user = st' := by
    rw [← hst1, update_eq_self]
  rw [← hupd]
  have hboot := hk.boot
  rw [Progs.op] at hop
  have hwait : ∀ t r, ¬ Awaits (st' GPID_PROCESS) (pr.act GPID_PROCESS)
      (pr.tag GPID_PROCESS) t r := by
    rintro t r ⟨-, ⟨k, ha, -⟩ | ⟨k, ha, -⟩⟩ <;> rw [ha] at hop <;> cases mode <;>
      simp [Act.op] at hop
  cases ha : pr.act GPID_PROCESS with
  | sysReady k pid' =>
      rw [ha] at hboot hop
      obtain ⟨rfl, rfl, hk2⟩ := hboot
      refine hk.goOn (a := if k < 2 then .sysWait k else .serve) hne1 hlive1 ?_ ?_ ?_ ?_ ?_
        (fun c t ho => ?_) (fun t r haw => absurd haw (hwait t r)) fun _ => ⟨?_, fun q hq => ?_⟩
      · simp only [Progs.readied, ha, Progs.setAct]
      · intro q _
        simp only [Progs.readied, ha, Progs.setAct]
      · split
        · rfl
        · exact Or.inl rfl
      · split <;> simp
      · intro _ r k'
        split <;> simp
      · split at ho
        · cases ho
        · cases ho with
          | got hg => simp at hg
      · split
        · exact ⟨rfl, by omega⟩
        · change 4 ≤ k + 2
          omega
      · -- the shell sends no notification
        have hexp := hk.notify q hq
        rw [ha] at hexp
        split
        · exact hexp
        · rename_i hlt
          obtain rfl : ((k : ℤ) + 2) = q := Option.some.inj hexp
          have hfits := (hk.loc _ hq.2.2.2).fits
          rw [hq.1] at hfits
          have h23 : (k : ℤ) + 2 = 2 ∨ (k : ℤ) + 2 = 3 := hfits
          omega
  | appReady cmd pid' =>
      rw [ha] at hboot
      refine hk.goPlain (a := .spawned cmd true) hne1 hlive1 ?_ ?_ rfl trivial hwait fun _ => ?_
      · simp only [Progs.readied, ha, Progs.setAct]
      · intro q _
        simp only [Progs.readied, ha, Progs.setAct]
      · rw [ha]
        exact ⟨rfl, hboot⟩
  | _ =>
      rw [ha] at hop
      cases mode <;> simp [Act.op] at hop

/-- **Every step keeps the invariant**, if its trap is fair. -/
theorem step {T : Ev ℤ (Msg B) → Prop} {A : ℤ → Prop} {st' : ℤ → Stage ℤ (Msg B)} {n' : ℕ}
    (h : Serving env mode st pr n) (hT : ∀ e st', Step st e st' → T e → Fair pr e)
    (hs : ProgStep env mode T A st pr n st' pr' n') : Serving env mode st' pr' n' := by
  cases hs with
  | quiet => exact h
  | trap hs he => exact h.trap hs (hT _ _ hs he)
  | send _ hst hop => exact h.send hst hop
  | recv _ hst hop => exact h.recv hst hop
  | answer _ hst hop => exact h.answer hst hop
  | alloc _ hst hop hnew => exact h.alloc hst hop hnew
  | ready _ hst hop hpid => exact h.ready hst hop hpid
  | free _ hst hop hpid => exact h.free hst hop hpid
  | retSend hst => exact h.retSend hst
  | retRecv hst => exact h.retRecv hst
  | choose hst hc => exact h.choose hst hc

end Serving

/-! ### Runs -/

namespace World

variable {env : Env B}

/-- The server whose reply the process waits for. -/
def awaited (w : World B) (p : ℤ) : Option ℤ :=
  match w.progs.act p with
  | .await r _ => some r.server
  | _ => none

/-- Only the server that it has called sends a message to `sys_proc` or `sys_dir` while it waits for
a reply, and if several processes wait to send to it when it calls `sys_recv` for the reply, the
search of `proc_recv` finds this server. -/
def UndisturbedTrap (w : World B) : Phase (Msg B) → Prop
  | .sendCall q _ =>
      q = GPID_PROCESS ∨ q = GPID_DIR → w.sys.kernel.view q = .waitRecv →
        ∀ server ∈ w.awaited q, w.sys.curr = server
  | .recvCall _ =>
      w.sys.curr = GPID_PROCESS ∨ w.sys.curr = GPID_DIR → ∀ server ∈ w.awaited w.sys.curr,
        w.sys.kernel.findSender = -1 ∨ w.sys.kernel.findSender = server
  | _ => True

/-- **The condition on a move.**  A trap of the current process does not disturb a server that waits
for a reply, and the counter of processes does not overflow. -/
def Undisturbed (w : World B) : Move → Prop
  | .intr .soft tty =>
      ¬ (tty = true ∧ w.sys.curr ≥ GPID_USER_START) → w.UndisturbedTrap (w.sys.phase w.sys.curr)
  | .act => w.progs.op w.sys.curr .messages = .alloc → w.sys.kernel.procNprocs + 1 < 2 ^ 31
  | _ => True

instance (w : World B) : DecidablePred w.UndisturbedTrap
  | .sendCall q _ => inferInstanceAs (Decidable (q = GPID_PROCESS ∨ q = GPID_DIR → _ → _))
  | .recvCall _ => inferInstanceAs (Decidable (_ → ∀ server ∈ _, _ ∨ _))
  | .user | .sendTrap _ _ | .recvTrap _ => inferInstanceAs (Decidable True)

instance [DecidableEq B] (w : World B) : DecidablePred w.Undisturbed
  | .intr .soft _ => inferInstanceAs (Decidable (_ → w.UndisturbedTrap _))
  | .act => inferInstanceAs (Decidable (w.progs.op w.sys.curr .messages = .alloc → _))
  | .intr .timer _ | .ret | .choose _ => inferInstanceAs (Decidable True)

/-- A message that is received inside `dir_lookup` or `file_read` is the reply to this very call. -/
def RepliesMatch (env : Env B) (w w' : World B) : Prop :=
  ∀ p size t m retval, w'.sys.log = w.sys.log ++ [.recv p size t m retval] →
    ∀ r k, w.progs.act p = .await r k → t = r.server ∧ m = ⟨env.answer r, w.progs.tag p⟩

/-- No process has run into a `FATAL` of `dir_lookup` or `file_read`. -/
def NoMistake (w : World B) : Prop :=
  ∀ p, w.sys.kernel.view p ≠ .dead →
    w.progs.act p ≠ .fatal .dirLookup ∧ w.progs.act p ≠ .fatal .fileRead

variable {w w' : World B} {st : ℤ → Stage ℤ (Msg B)}

theorem awaited_eq {p : ℤ} {r : Request} {k : Kont B} (h : w.progs.act p = .await r k) :
    r.server ∈ w.awaited p := by
  rw [awaited, h]
  rfl

theorem serving_boot {mode : Mode} (mem : ℤ → Syscall (Msg B)) (registers : Fin 29 → UInt32) :
    Serving env mode Sys.stage₀ (boot mem registers : World B).progs 1 := by
  have hsim : Sys.Sim copyMsg (boot mem registers : World B).sys Sys.stage₀ :=
    Sys.sim_boot mem registers
  refine ⟨hsim.unborn, fun p hp => ?_, fun v c t _ hv ho => ?_, ⟨rfl, by decide⟩, fun p hp => ?_⟩
  · by_cases h1 : p = GPID_PROCESS
    · subst h1
      exact ⟨trivial, rfl, fun _ _ _ _ he => absurd he (by simp [Sys.stage₀]),
        fun _ _ he => absurd he (by simp [Sys.stage₀]), fun _ => by simp [boot]⟩
    · rw [Sys.stage₀, if_neg h1] at hp
      exact absurd rfl hp
  · cases ho
  · exact absurd hp.1 (by simp [boot])

/-- The traps of an undisturbed move are fair. -/
theorem Undisturbed.fair {l : Move} (hu : w.Undisturbed l) (hsim : Sys.Sim copyMsg w.sys st)
    {e : Ev ℤ (Msg B)} {st' : ℤ → Stage ℤ (Msg B)} (hs : Step st e st') (he : w.Trap l e) :
    Serving.Fair w.progs e := by
  obtain ⟨tty, rfl, hc, hev⟩ := he
  have htrap := hu hc
  cases hs with
  | @give p q m hp hq =>
      intro hq13 r k ha
      obtain rfl : p = w.sys.curr := hev
      have hstp := hsim.stage w.sys.curr
      have hstq := hsim.stage q
      rw [hp] at hstp
      rw [hq] at hstq
      rw [hstp.2.1] at htrap
      exact htrap hq13 hstq.1 _ (awaited_eq ha)
  | @take p q m hq hp =>
      intro hq13 r k ha
      obtain ⟨rfl, hfind⟩ := hev
      have hstq := hsim.stage w.sys.curr
      rw [hq] at hstq
      obtain ⟨-, ⟨size, -, hph⟩, -⟩ := hstq
      rw [hph] at htrap
      rcases htrap hq13 _ (awaited_eq ha) with hnone | hsome
      · -- the process found is not `-1`
        have hun := hsim.unborn p
        rw [hp] at hun
        simp only [reduceCtorEq, false_iff, not_or] at hun
        omega
      · exact hfind.symm.trans hsome
  | fail | block | wait => trivial
  | sysSend | sysRecv | retSend | retRecv | spawn | ready | kill => exact hev.elim

/-- The reply that returns is the one that has arrived. -/
theorem repliesMatch {l : Move} (hsim : Sys.Sim copyMsg w.sys st)
    (h : Serving env .messages st w.progs w.sys.kernel.procNprocs)
    (hs : w.step env .messages l = some w') : w.RepliesMatch env w' := by
  intro p size t m retval hlog r k ha
  by_cases hl : l = .ret
  · subst hl
    simp only [step] at hs
    obtain ⟨s, hstep, rfl⟩ := Option.map_eq_some_iff.1 hs
    have hsys : (w.returned env s).sys = s := by
      rw [returned]
      split <;> rfl
    rw [hsys] at hlog
    obtain ⟨-, ⟨q, a, ok, -, hlog', -⟩ | ⟨t', a, c, n, -, -, hc, hlog', he⟩⟩ :=
      Sys.sim_ret hsim hstep
    · rw [hlog'] at hlog
      simp at hlog
    · rw [hlog'] at hlog
      obtain ⟨rfl, -, rfl, rfl, -⟩ := Returned.recv.inj (List.singleton_inj.1
        (List.append_cancel_left hlog))
      rw [eq_of_holds hc, show copyMsg.copyOut n a = a from rfl]
      cases he with
      | retRecv hst =>
          exact (h.loc _ (by rw [hst]; simp)).got _ _ r k hst ha
  · rw [step_log hs hl] at hlog
    simp at hlog

theorem noMistake (hsim : Sys.Sim copyMsg w.sys st)
    (h : Serving env .messages st w.progs w.sys.kernel.procNprocs) : w.NoMistake := by
  intro p hp
  have hne : st p ≠ .unborn := (hsim.stage p).ne_unborn hp
  have hfits := (h.loc p hne).fits
  constructor
  · intro ha
    rw [ha] at hfits
    exact absurd hfits (by simp [Act.Fits])
  · intro ha
    rw [ha] at hfits
    exact absurd hfits (by simp [Act.Fits])

end World

/-- **Every call gets its own reply.**  In a run in which only the called server sends to `sys_proc`
and to `sys_dir` while they wait for a reply, every message that `dir_lookup` or `file_read`
receives is the reply of the called server to this very request, so that their checks never fail. -/
theorem replies_match (env : Env B) (mem : ℤ → Syscall (Msg B)) (registers : Fin 29 → UInt32)
    (ls : List Move)
    (h : Runs.EveryStep (fun w l => w.step env .messages l) (fun w l _ => w.Undisturbed l)
      (World.boot mem registers) ls) :
    Runs.EveryStep (fun w l => w.step env .messages l)
      (fun w _ w' => w.RepliesMatch env w' ∧ w'.NoMistake) (World.boot mem registers) ls := by
  refine Runs.EveryStep.imp (I := fun w _ => ∃ st, Sys.Sim World.copyMsg w.sys st ∧
    Serving env .messages st w.progs w.sys.kernel.procNprocs) ?_ ls _ ?_ h
  · rintro w l - w' ⟨st, hsim, hserv⟩ hs hu
    have hn : l = .act → w.progs.op w.sys.curr .messages = .alloc →
        w.sys.kernel.procNprocs + 1 < 2 ^ 31 := by
      rintro rfl hop
      exact hu hop
    obtain ⟨st', hsim', hstep⟩ := World.progStep hsim hn hs
    have hserv' := hserv.step (fun e st'' he hT => hu.fair hsim he hT) hstep
    exact ⟨⟨World.repliesMatch hsim hserv hs, World.noMistake hsim' hserv'⟩, st', hsim', hserv'⟩
  · exact ⟨_, Sys.sim_boot mem registers, World.serving_boot mem registers⟩

/-! ### A small system -/

/-- A file system in which every name is found, and programs that fit into no block. -/
def smallEnv : Env Unit where
  read _ _ := (true, ())
  find _ _ := 7
  load _ := .done

/-- The system is started with cleared memory. -/
def smallBoot : World Unit :=
  World.boot (fun _ => ⟨.unused, ⟨0, 0, ⟨.finish, (0, 0)⟩⟩, 0⟩) fun _ => 0

/-- The shell runs `x` in the background.  Its first command, which is process 5, ends at once, and
the others when `sys_proc` is inside of `dir_lookup`. -/
def disturb (w : World Unit) : Option Choice :=
  match w.progs.act w.sys.curr with
  | .prompt => some (.command ⟨['x'], [['&']]⟩)
  | .user =>
      if w.sys.curr = 5 then some .exit
      else (w.awaited GPID_PROCESS).map fun _ => .exit
  | _ => none

/-- The run until `sys_proc` has found the first command. -/
def quietRun : List Move := smallBoot.moves smallEnv .messages disturb 75

theorem replies_match_quietRun :
    (smallBoot.run smallEnv .messages quietRun).any (fun w => w.progs.calls GPID_PROCESS = 2) =
      true ∧
      Runs.EveryStep (fun w l => w.step smallEnv .messages l)
        (fun w _ w' => w.RepliesMatch smallEnv w' ∧ w'.NoMistake) smallBoot quietRun :=
  ⟨by decide +kernel, replies_match smallEnv _ _ quietRun (by decide +kernel)⟩

/-- The run in which the second command ends while `sys_proc` looks for the third one. -/
def disturbedRun : List Move := smallBoot.moves smallEnv .messages disturb 192

/-- **A request is mistaken for a reply**: `sys_proc` receives the `PROC_EXIT` of process 6 inside
of `dir_lookup`, whose check fails. -/
theorem reply_mistaken :
    ∃ w, smallBoot.run smallEnv .messages disturbedRun = some w ∧
      w.sys.kernel.view GPID_PROCESS ≠ .dead ∧
      w.sys.log.getLast? = some (.recv GPID_PROCESS 1024 6 ⟨.exit, (6, 0)⟩ 0) ∧
      w.progs.act GPID_PROCESS = .fatal .dirLookup := by
  have h : (smallBoot.run smallEnv .messages disturbedRun).any (fun w =>
      w.sys.kernel.view GPID_PROCESS ≠ .dead ∧
      w.sys.log.getLast? = some (.recv GPID_PROCESS 1024 6 ⟨.exit, (6, 0)⟩ 0) ∧
      w.progs.act GPID_PROCESS = .fatal .dirLookup) = true := by
    decide +kernel
  obtain ⟨w, hw, h⟩ := (Option.any_eq_true _ _).1 h
  exact ⟨w, hw, of_decide_eq_true h⟩

end Egos
