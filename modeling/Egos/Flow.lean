/-
**What keeps the processes going.**

The processes wait for each other in many ways: for the reply to a call, for a server to take a
request, for the notification of a server, for a process to be loaded.  The invariant of this module
says that whoever is waited for is there, and has not forgotten what is expected of it.  It holds in
every run in which nobody disturbs a server that waits for a reply, and `sys_proc` does not take the
end of an older process for that of a command which has failed.

Main definitions:

* `Egos.Served` — a call that has been handed over is in the hands of its server;
* `Egos.InLoad`, `Egos.Notified`, `Egos.Met` — who loads a process, who is to notify `sys_proc`, and
  that no two processes miss each other;
* `Egos.Flowing` — **the invariant**.

Main results:

* `Egos.Served.step`, `Egos.InLoad.step`, `Egos.Notified.step`, `Egos.Met.step` — what a step keeps;
* `Egos.Flowing.step` — every step keeps the invariant.
-/

import Egos.AtomicCalls

set_option autoImplicit false

namespace Egos

open Function (update update_comm update_eq_self update_of_ne update_self)
open Rendezvous (Stage Ev Step)

variable {B : Type} {env : Env B} {st st' : ℤ → Stage ℤ (Msg B)} {pr pr' : Progs B} {n n' : ℕ}
  {p q : ℤ} {x : Stage ℤ (Msg B)} {a : Act B} {m : Msg B} {t : Talk}

/-! ### Calls are in the hands of their servers -/

/-- **A call that has been handed over is owed a reply.** -/
def Served (st : ℤ → Stage ℤ (Msg B)) (pr : Progs B) : Prop :=
  ∀ c tag r, Awaits (st c) (pr.act c) (pr.tag c) tag r →
    Owes (st r.server) (pr.act r.server) c tag

/-- A process that is not inside of a call waits for no reply. -/
theorem not_awaits {tag tag' : ℤ × ℕ} {r' : Request} (hcall : ∀ r k, a ≠ .call r k)
    (hawait : ∀ r k, a ≠ .await r k) : ¬ Awaits x a tag tag' r' := by
  rintro ⟨-, ⟨k, ha, -⟩ | ⟨k, ha, -⟩⟩
  · exact hcall _ _ ha
  · exact hawait _ _ ha

/-- A dead process waits for nothing. -/
theorem not_awaits_dead {tag tag' : ℤ × ℕ} {r : Request} : ¬ Awaits .dead a tag tag' r := by
  rintro ⟨-, ⟨k, -, hs⟩ | ⟨k, -, hs⟩⟩
  · exact hs trivial
  · simp at hs

/-- `sys_proc` frees a process. -/
theorem Progs.act_of_free {pid : ℤ} (hop : pr.op p .messages = .free pid) :
    pr.act p = .procFree pid := by
  rw [Progs.op] at hop
  cases ha : pr.act p <;> rw [ha] at hop <;> simp [Act.op] at hop ⊢
  exact hop

namespace Serving

/-- The server that is called exists. -/
theorem server_born {r : Request} {k : Kont B} (h : Serving env .messages st pr n)
    (hp : st p ≠ .unborn) (ha : pr.act p = .call r k ∨ pr.act p = .await r k) :
    st r.server ≠ .unborn := by
  have hfits : k.Fits p r := by
    have hf := (h.loc p hp).fits
    rcases ha with ha | ha <;> rwa [ha] at hf
  obtain ⟨h2, h4, h3⟩ := call_fits hfits
  have hpos := mt (h.born p).2 hp
  -- `sys_proc` makes calls only after it has started the servers
  have hn : p = 1 → 4 ≤ n := by
    rintro rfl
    have hboot := h.boot
    rcases ha with ha | ha <;> rw [ha] at hboot <;> exact hboot
  have hserver := server_eq r
  intro hu
  rcases (h.born r.server).1 hu with h0 | hlt
  · omega
  · by_cases h1 : p = 1
    · have := hn h1
      omega
    · by_cases hp3 : p = 3
      · have := h3 hp3
        omega
      · omega

/-- A server does not call itself. -/
theorem server_ne {r : Request} {k : Kont B} (h : Serving env .messages st pr n)
    (hp : st p ≠ .unborn) (ha : pr.act p = .call r k ∨ pr.act p = .await r k) : r.server ≠ p := by
  have hfits : k.Fits p r := by
    have hf := (h.loc p hp).fits
    rcases ha with ha | ha <;> rwa [ha] at hf
  obtain ⟨h2, -, h3⟩ := call_fits hfits
  rintro rfl
  rcases server_eq r with hr | hr
  · exact h2 hr
  · have := h3 hr
    omega

end Serving

namespace Served

/-- A change to one process. -/
theorem set (h : Served st pr) (hact : ∀ q, q ≠ p → pr'.act q = pr.act q)
    (hcalls : ∀ q, q ≠ p → pr'.calls q = pr.calls q)
    (haw : ∀ tag r, Awaits x (pr'.act p) (pr'.tag p) tag r →
      r.server ≠ p ∧ Owes (st r.server) (pr.act r.server) p tag)
    (how : ∀ c tag r, c ≠ p → r.server = p → Awaits (st c) (pr.act c) (pr.tag c) tag r →
      Owes (st p) (pr.act p) c tag → Owes x (pr'.act p) c tag) :
    Served (update st p x) pr' := by
  have htag : ∀ q, q ≠ p → pr'.tag q = pr.tag q := fun q hq => by
    rw [Progs.tag, hcalls q hq, Progs.tag]
  intro c tag r hc
  by_cases hcp : c = p
  · subst hcp
    rw [update_self] at hc
    obtain ⟨hne, ho⟩ := haw tag r hc
    rw [update_of_ne hne, hact _ hne]
    exact ho
  · rw [update_of_ne hcp, hact c hcp, htag c hcp] at hc
    have ho := h c tag r hc
    by_cases hr : r.server = p
    · rw [hr, update_self]
      rw [hr] at ho
      exact how c tag r hcp hr hc ho
    · rw [update_of_ne hr, hact _ hr]
      exact ho

/-- A change to the stage of one process that keeps its debts. -/
theorem setStage (h : Served st pr)
    (haw : ∀ tag r, Awaits x (pr.act p) (pr.tag p) tag r →
      r.server ≠ p ∧ Owes (st r.server) (pr.act r.server) p tag)
    (hgot : ∀ s m, st p ≠ .got s m) (hsent : NotSent (st p) → NotSent x) :
    Served (update st p x) pr := by
  refine h.set (fun _ _ => rfl) (fun _ _ => rfl) haw fun c tag r _ _ _ ho => ?_
  generalize pr.act p = b at ho ⊢
  cases ho with
  | got hg => exact absurd hg (hgot _ _)
  | call => exact .call
  | await => exact .await
  | reply hn => exact .reply (hsent hn)

/-- A message changes hands. -/
theorem deliver (h : Served st pr) (hserv : Serving env .messages st pr n)
    (hp : st p = .sendCall q m ∨ st p = .waitSend q m)
    (hq : st q = .waitRecv ∨ st q = .recvCall)
    (hfair : q = GPID_PROCESS ∨ q = GPID_DIR → ∀ r k, pr.act q = .await r k → p = r.server) :
    Served (update (update st p (.sent q m true)) q (.got p m)) pr := by
  obtain ⟨hpne, hplive, hsent, hop⟩ := hserv.of_sending hp
  obtain ⟨hqne, hqlive, hoq⟩ := hserv.of_receiving hq
  have hpq : p ≠ q := by
    rintro rfl
    rcases hp with hp | hp <;> rcases hq with hq | hq <;> rw [hp] at hq <;> simp at hq
  -- first the receiver gets the message, and then the call of the sender ends
  have hgot : Served (update st q (.got p m)) pr := by
    refine h.setStage (fun tag r haw => absurd haw ?_) ?_ fun _ => trivial
    · rintro ⟨-, ⟨k, -, hs⟩ | ⟨k, -, hs⟩⟩
      · exact hs trivial
      · simp at hs
    · rcases hq with hq | hq <;> rw [hq] <;> simp
  rw [update_comm hpq]
  refine hgot.set (fun _ _ => rfl) (fun _ _ => rfl) (fun tag r haw => ?_)
    fun c tag r hcp _ haw ho => ?_
  · obtain ⟨rfl, ⟨k, ha, -⟩ | ⟨k, ha, hs⟩⟩ := haw
    · -- it was a request, and the server was ready to serve
      have hne := hserv.server_ne hpne (Or.inl ha)
      refine ⟨hne, ?_⟩
      rw [ha] at hop
      obtain ⟨-, rfl, rfl⟩ := Act.op_call_send hop
      rw [update_self]
      have hfp := (hserv.loc p hpne).fits
      rw [ha] at hfp
      have hr := Serving.server_eq r
      have h2 := (Serving.call_fits hfp).1
      rcases Serving.recv_cases (hserv.loc _ hqne).fits hoq with
        haq | ⟨r', k', haq⟩ | ⟨k', -, h1⟩ | ⟨-, h4⟩
      · rw [haq]
        exact .got rfl
      · have hfq := (hserv.loc _ hqne).fits
        rw [haq] at hfq
        obtain ⟨hq2, -, hq3⟩ := Serving.call_fits hfq
        have h3 : r.server = 3 := by omega
        have := hfair (Or.inr h3) r' k' haq
        have := hq3 h3
        omega
      · have : r.server = 1 := h1
        omega
      · have : r.server = 4 := h4
        omega
    · simp at hs
  · rw [update_of_ne hpq] at ho
    generalize ha : pr.act p = b at ho
    cases ho with
    | got hg => rcases hp with hp | hp <;> rw [hp] at hg <;> simp at hg
    | call => exact .call
    | await =>
        rw [ha] at hop
        simp [Act.op] at hop
    | reply =>
        -- the reply is no longer waited for
        rw [ha] at hop
        obtain ⟨rfl, rfl⟩ := Op.send.inj hop
        rw [update_self] at haw
        obtain ⟨-, ⟨k, -, hs⟩ | ⟨k, -, hs⟩⟩ := haw
        · exact absurd trivial hs
        · simp at hs

variable {T : Ev ℤ (Msg B) → Prop} {A : ℤ → Prop}

/-- A trap. -/
theorem trap {e : Ev ℤ (Msg B)} (h : Served st pr) (hserv : Serving env .messages st pr n)
    (hlive : ∀ r : Request, st r.server ≠ .dead) (hs : Step st e st')
    (hfair : Serving.Fair pr e) : Served st' pr := by
  cases hs with
  | @fail p q m hp hq =>
      obtain ⟨hne, -, -, hop⟩ := hserv.of_sending (Or.inl hp)
      refine h.set (fun _ _ => rfl) (fun _ _ => rfl) (fun tag r haw => ?_)
        fun c tag r _ _ haw ho => ?_
      · -- the server that is called is there
        obtain ⟨-, ⟨k, ha, -⟩ | ⟨k, -, hs⟩⟩ := haw
        · rw [ha] at hop
          obtain ⟨-, rfl, -⟩ := Act.op_call_send hop
          rcases hq with hd | hu
          · exact absurd hd (hlive r)
          · exact absurd hu (hserv.server_born hne (Or.inl ha))
        · simp at hs
      · generalize ha : pr.act p = b at ho
        cases ho with
        | got hg => rw [hp] at hg; simp at hg
        | call => exact .call
        | await =>
            rw [ha] at hop
            simp [Act.op] at hop
        | reply =>
            rw [ha] at hop
            obtain ⟨rfl, rfl⟩ := Op.send.inj hop
            rcases hq with hd | hu
            · rw [hd] at haw
              exact absurd haw not_awaits_dead
            · rw [hu] at haw
              obtain ⟨-, ⟨k, -, hs⟩ | ⟨k, -, hs⟩⟩ := haw
              · exact absurd trivial hs
              · simp at hs
  | @block p q m hp _ =>
      refine h.setStage (fun tag r haw => ?_) (by rw [hp]; simp) fun _ => trivial
      obtain ⟨-, ⟨k, -, hs⟩ | ⟨k, -, hs⟩⟩ := haw
      · exact absurd trivial hs
      · simp at hs
  | @wait q hq _ =>
      refine h.setStage (fun tag r haw => ?_) (by rw [hq]; simp) fun _ => trivial
      obtain ⟨ht, ⟨k, -, hs⟩ | ⟨k, ha, -⟩⟩ := haw
      · exact absurd trivial hs
      · exact ⟨hserv.server_ne (by rw [hq]; simp) (Or.inr ha),
          h q tag r ⟨ht, Or.inr ⟨k, ha, Or.inr (Or.inl hq)⟩⟩⟩
  | give hp hq => exact h.deliver hserv (Or.inl hp) (Or.inl hq) hfair
  | take hq hp => exact h.deliver hserv (Or.inr hp) (Or.inr hq) hfair
  | sysSend | sysRecv | retSend | retRecv | spawn | ready | kill => exact hfair.elim

theorem congr (h : Served st pr) (hact : pr'.act = pr.act) (hcalls : pr'.calls = pr.calls) :
    Served st pr' := by
  have htag : pr'.tag = pr.tag := by
    funext q
    rw [Progs.tag, hcalls, Progs.tag]
  intro c tag r hc
  rw [hact, htag] at hc
  rw [hact]
  exact h c tag r hc

theorem send (h : Served st pr) (hst : st p = .user) :
    Served (update st p (.sendCall q m)) (pr.note p) := by
  have hnote : (pr.note p).act = pr.act ∧ (pr.note p).calls = pr.calls := by
    rw [Progs.note]
    split <;> exact ⟨rfl, rfl⟩
  have hset : Served (update st p (.sendCall q m)) pr →
      Served (update st p (.sendCall q m)) (pr.note p) := fun h =>
    h.congr hnote.1 hnote.2
  refine hset (h.setStage (fun tag r haw => ?_) (by rw [hst]; simp) fun _ => trivial)
  obtain ⟨-, ⟨k, -, hs⟩ | ⟨k, -, hs⟩⟩ := haw
  · exact absurd trivial hs
  · simp at hs

theorem recv (h : Served st pr) (hserv : Serving env .messages st pr n) (hst : st p = .user) :
    Served (update st p .recvCall) pr := by
  refine h.setStage (fun tag r haw => ?_) (by rw [hst]; simp) fun _ => trivial
  obtain ⟨ht, ⟨k, -, hs⟩ | ⟨k, ha, -⟩⟩ := haw
  · exact absurd trivial hs
  · exact ⟨hserv.server_ne (by rw [hst]; simp) (Or.inr ha),
      h p tag r ⟨ht, Or.inr ⟨k, ha, Or.inl hst⟩⟩⟩

/-- `sys_proc` goes on with something else than waiting for a reply. -/
theorem setProcess (h : Served st pr) (hst : st GPID_PROCESS = .user)
    (hact : pr'.act = update pr.act GPID_PROCESS a) (hcalls : pr'.calls = pr.calls)
    (ha : ∀ r k, a ≠ .await r k) : Served st pr' := by
  have hupd : update st GPID_PROCESS .user = st := by
    rw [← hst, update_eq_self]
  rw [← hupd]
  refine h.set (fun q hq => by rw [hact, update_of_ne hq]) (fun q _ => by rw [hcalls])
    (fun tag r haw => ?_) fun c tag r _ hr => ?_
  · rw [hact, update_self] at haw
    obtain ⟨-, ⟨k, -, hs⟩ | ⟨k, hk, -⟩⟩ := haw
    · exact absurd trivial hs
    · exact absurd hk (ha r k)
  · rcases Serving.server_eq r with h2 | h3
    · exact absurd (hr.symm.trans h2) (by decide)
    · exact absurd (hr.symm.trans h3) (by decide)

theorem alloc (h : Served st pr) (hserv : Serving env .messages st pr n)
    (hst : st GPID_PROCESS = .user) (hop : pr.op GPID_PROCESS .messages = .alloc)
    (hnew : st ((n : ℤ) + 1) = .unborn) :
    Served (update st ((n : ℤ) + 1) .loading)
      (pr.allocated env GPID_PROCESS ((n : ℤ) + 1)) := by
  have hne : GPID_PROCESS ≠ (n : ℤ) + 1 := by
    intro he
    rw [← he, hst] at hnew
    simp at hnew
  -- the new process makes no call, and is called by nobody
  have hborn : Served (update st ((n : ℤ) + 1) .loading)
      { pr with act := update pr.act ((n : ℤ) + 1) (.start ((n : ℤ) + 1)) } := by
    refine h.set (fun q hq => update_of_ne hq _ _) (fun _ _ => rfl)
      (fun tag r haw => absurd haw ?_) fun c tag r _ hr haw => ?_
    · rintro ⟨-, ⟨k, -, hs⟩ | ⟨k, -, hs⟩⟩
      · exact hs trivial
      · simp at hs
    · obtain ⟨-, ⟨k, ha, hs⟩ | ⟨k, ha, hs⟩⟩ := haw
      · refine absurd (hr ▸ hnew) (hserv.server_born (p := c) (fun hu => ?_) (Or.inl ha))
        rw [hu] at hs
        exact hs trivial
      · refine absurd (hr ▸ hnew) (hserv.server_born (p := c) (fun hu => ?_) (Or.inr ha))
        rw [hu] at hs
        simp at hs
  obtain ⟨-, b, hact, hb⟩ := Progs.atomic_allocated env hop ((n : ℤ) + 1)
  refine hborn.setProcess (a := b) ?_ hact ?_ fun r k => hb ▸ Act.whole_ne_await b r k
  · rw [update_of_ne hne]
    exact hst
  · rw [Progs.allocated]
    split <;> rfl

theorem ready {pid : ℤ} (h : Served st pr) (hserv : Serving env .messages st pr n)
    (hst : st GPID_PROCESS = .user) (hop : pr.op GPID_PROCESS .messages = .ready pid)
    (hpid : st pid = .loading) :
    Served (update st pid .user) (pr.readied GPID_PROCESS) := by
  have hne : GPID_PROCESS ≠ pid := by
    rintro rfl
    rw [hst] at hpid
    simp at hpid
  have hstart : pr.act pid = .start pid := by
    have hs := (hserv.loc pid (by rw [hpid]; simp)).stage
    rwa [hpid] at hs
  have hplain : (∀ r k, (Act.start pid : Act B) ≠ .call r k) ∧
      ∀ r k, (Act.start pid : Act B) ≠ .await r k := by
    rw [Act.start]
    split
    · simp
    · split <;> simp
  have huser : Served (update st pid .user) pr := by
    refine h.setStage (fun tag r haw => absurd haw ?_) (by rw [hpid]; simp) fun _ => trivial
    rw [hstart]
    exact not_awaits hplain.1 hplain.2
  obtain ⟨-, b, hact, hb, -⟩ := Progs.atomic_readied hop
  refine huser.setProcess (a := b) ?_ hact ?_ fun r k => hb ▸ Act.whole_ne_await b r k
  · rw [update_of_ne hne]
    exact hst
  · rw [Progs.readied]
    split <;> rfl

/-- Processes are killed, but not the servers. -/
theorem kill (h : Served st pr) {gone : ℤ → Bool} (hgone : ∀ r : Request, gone r.server = false) :
    Served (fun p => if gone p then .dead else st p) pr := by
  intro c tag r hc
  simp only [hgone r, Bool.false_eq_true, if_false]
  change Awaits (if gone c = true then .dead else st c) _ _ _ _ at hc
  refine h c tag r ?_
  by_cases hg : gone c = true
  · rw [if_pos hg] at hc
    exact absurd hc not_awaits_dead
  · rwa [if_neg hg] at hc

theorem retSend {ok : Bool} (h : Served st pr) (hserv : Serving env .messages st pr n)
    (hst : st p = .sent q m ok) :
    Served (update st p .user) (pr.setAct p (pr.act p).afterSend) := by
  have hne : st p ≠ .unborn := by rw [hst]; simp
  have hop := (hserv.loc p hne).stage
  rw [hst] at hop
  have hop' : (pr.act p).op .messages (pr.tag p) = .send q m := hop
  refine h.set (fun q hq => pr.setAct_of_ne p hq _) (fun _ _ => rfl) (fun tag r haw => ?_)
    fun c tag r _ _ _ ho => ?_
  · rw [pr.setAct_self] at haw
    obtain ⟨ht, ⟨k, -, hs⟩ | ⟨k, ha, -⟩⟩ := haw
    · exact absurd trivial hs
    · -- the request has been handed over before
      cases hact : pr.act p with
      | call r' k' =>
          rw [hact] at ha
          obtain ⟨rfl, rfl⟩ := Act.await.inj ha
          exact ⟨hserv.server_ne hne (Or.inl hact),
            h p tag r' ⟨ht, Or.inl ⟨k', hact, by rw [hst]; exact id⟩⟩⟩
      | await r' k' =>
          rw [hact] at hop'
          simp [Act.op] at hop'
      | _ =>
          rw [hact] at ha
          simp [Act.afterSend] at ha
  · rw [pr.setAct_self]
    generalize ha : pr.act p = b at ho
    cases ho with
    | got hg => rw [hst] at hg; simp at hg
    | call => exact .await
    | await =>
        rw [ha] at hop'
        simp [Act.op] at hop'
    | reply hn =>
        rw [hst] at hn
        exact hn.elim

/-- A server goes on with a request, or with the block that it has read for one. -/
theorem retRecv (h : Served st pr) (hserv : Serving env .messages st pr n)
    (hst : st p = .got q m) : Served (update st p .user) (pr.received env p q m) := by
  have hne : st p ≠ .unborn := by rw [hst]; simp
  have hloc := hserv.loc p hne
  have hop := hloc.stage
  rw [hst] at hop
  have hact : (pr.received env p q m).act =
      update pr.act p ((pr.act p).afterRecv env p q m) := by
    rw [Progs.received]
    split <;> rfl
  refine h.set (fun q' hq => by rw [hact, update_of_ne hq]) (fun q' hq => ?_)
    (fun tag r haw => ?_) fun c tag r _ _ _ ho => ?_
  · rw [Progs.received]
    split
    · exact update_of_ne hq _ _
    · rfl
    · rfl
  · rw [hact, update_self] at haw
    obtain ⟨-, ⟨k, -, hs⟩ | ⟨k, ha, -⟩⟩ := haw
    · exact absurd trivial hs
    · have honward := Act.onward_afterRecv env p q m hop
      rw [ha] at honward
      exact honward.elim
  · rw [hact, update_self]
    generalize ha : pr.act p = b at ho
    cases ho with
    | @got c r' tag' hg =>
        rw [hst] at hg
        obtain ⟨rfl, rfl⟩ := Stage.got.inj hg
        have hproper := hloc.proper _ _ hst ha
        cases r' with
        | fileRead ino offset =>
            obtain rfl : p = GPID_FILE := hproper
            exact .reply trivial
        | dirLookup ino name =>
            obtain rfl : p = GPID_DIR := hproper
            exact .call
    | call =>
        rw [ha] at hop
        exact absurd hop Act.op_call_ne_recv
    | @await r' c tag' name =>
        obtain ⟨rfl, rfl⟩ := hloc.got _ _ _ _ hst ha
        have hfit := hloc.fits
        rw [ha] at hfit
        obtain ⟨-, ino, rfl⟩ := hfit
        exact .reply trivial
    | reply =>
        rw [ha] at hop
        simp [StageFits, Act.op] at hop

theorem choose {c : Choice} (h : Served st pr) (hserv : Serving env .messages st pr n)
    (hst : st p = .user) (hc : (pr.act p).choose c = some a) : Served st (pr.setAct p a) := by
  have hupd : update st p .user = st := by rw [← hst, update_eq_self]
  have hfit := (hserv.loc p (by rw [hst]; simp)).fits
  rw [← hupd]
  refine h.set (fun q hq => pr.setAct_of_ne p hq _) (fun _ _ => rfl) (fun tag r haw => ?_)
    fun c tag r _ hr _ _ => ?_
  · rw [pr.setAct_self] at haw
    obtain ⟨-, ⟨k, -, hs⟩ | ⟨k, ha, -⟩⟩ := haw
    · exact absurd trivial hs
    · rcases Act.choose_cases hc with hp | hp <;> rw [hp] at hc <;> cases c <;>
        simp [Act.choose] at hc <;> subst hc <;> simp at ha
  · -- no server makes decisions
    have hserver := Serving.server_eq r
    rcases Act.choose_cases hc with hp | hp <;> rw [hp] at hfit
    · have : p ≥ 5 := hfit
      omega
    · have : p = 4 := hfit
      omega

theorem step (h : Served st pr) (hserv : Serving env .messages st pr n)
    (hlive : ∀ r : Request, st r.server ≠ .dead)
    (hT : ∀ e st', Step st e st' → T e → Serving.Fair pr e)
    (hfree : ∀ pid, pr.act GPID_PROCESS = .procFree pid →
      ∀ r : Request, Sys.goneBy st pid r.server = false)
    (hs : ProgStep env .messages T A st pr n st' pr' n') : Served st' pr' := by
  cases hs with
  | quiet => exact h
  | trap hs he => exact h.trap hserv hlive hs (hT _ _ hs he)
  | send _ hst _ => exact h.send hst
  | recv _ hst _ => exact h.recv hserv hst
  | answer _ _ hop =>
      rw [Progs.op] at hop
      cases ha : pr.act _ <;> rw [ha] at hop <;> simp [Act.op] at hop
  | alloc _ hst hop hnew => exact h.alloc hserv hst hop hnew
  | ready _ hst hop hpid => exact h.ready hserv hst hop hpid
  | @free pid _ hst hop hpid =>
      have ha : pr.act GPID_PROCESS = .procFree pid := Progs.act_of_free hop
      have hgone : Sys.goneBy st pid GPID_PROCESS = false := by
        by_cases hm : pid = -1
        · rw [Sys.goneBy, if_pos hm, decide_eq_false (by decide), Bool.false_and]
        · simp [Sys.goneBy, hm, Ne.symm hpid]
      refine (h.kill (hfree pid ha)).setProcess ?_ rfl rfl ?_
      · simp only [hgone, Bool.false_eq_true, if_false]
        exact hst
      · split <;> simp
  | retSend hst => exact h.retSend hserv hst
  | retRecv hst => exact h.retRecv hserv hst
  | choose hst hc => exact h.choose hserv hst hc

end Served

/-! ### Who loads a process -/

/-- `sys_proc` loads the process, or has failed to. -/
def Loads (p : ℤ) : Act B → Prop
  | .sysReady _ pid => p = pid
  | .call _ (.load _ pid _ _) | .await _ (.load _ pid _ _) | .appReady _ pid => p = pid ∧ 5 ≤ p
  | .fatal _ => 5 ≤ p
  | _ => False

/-- **A process that is loading is loaded by `sys_proc`.** -/
def InLoad (st : ℤ → Stage ℤ (Msg B)) (pr : Progs B) : Prop :=
  ∀ p, st p = .loading → Loads p (pr.act GPID_PROCESS)

theorem loading_of_update (hx : x ≠ .loading) (h : update st p x q = .loading) :
    st q = .loading := by
  by_cases hq : q = p
  · subst hq
    rw [update_self] at h
    exact absurd h hx
  · rwa [update_of_ne hq] at h

theorem loads_loadNext {cmd : Cmd} {pid ino : ℤ} {blocks : List B} (hpid : 5 ≤ pid) :
    Loads pid (Act.loadNext env cmd pid ino blocks) := by
  rw [Act.loadNext]
  split
  · exact ⟨rfl, hpid⟩
  · exact ⟨rfl, hpid⟩
  · exact hpid

namespace InLoad

variable {T : Ev ℤ (Msg B) → Prop} {A : ℤ → Prop}

/-- A step that creates no process. -/
theorem keep (h : InLoad st pr) (hst : ∀ p, st' p = .loading → st p = .loading)
    (hact : ∀ p, Loads p (pr.act GPID_PROCESS) → Loads p (pr'.act GPID_PROCESS)) :
    InLoad st' pr' := fun p hp => hact p (h p (hst p hp))

theorem trap {e : Ev ℤ (Msg B)} (h : InLoad st pr) (hs : Step st e st') (he : TrapKind e) :
    InLoad st' pr := by
  refine h.keep (fun p hp => ?_) fun _ hl => hl
  cases hs with
  | fail | block | wait => exact loading_of_update (by simp) hp
  | give | take => exact loading_of_update (by simp) (loading_of_update (by simp) hp)
  | sysSend | sysRecv | retSend | retRecv | spawn | ready | kill => exact he.elim

theorem alloc (h : InLoad st pr) (hserv : Serving env .messages st pr n)
    (hop : pr.op GPID_PROCESS .messages = .alloc) :
    InLoad (update st ((n : ℤ) + 1) .loading)
      (pr.allocated env GPID_PROCESS ((n : ℤ) + 1)) := by
  have hboot := hserv.boot
  rw [Progs.op] at hop
  intro p hp
  -- nobody was loading before
  have hp' : p = (n : ℤ) + 1 := by
    by_contra hne
    rw [update_of_ne hne] at hp
    have hl := h p hp
    cases ha : pr.act GPID_PROCESS <;> rw [ha] at hop hl <;> first
      | exact hl.elim
      | simp [Act.op] at hop
  subst hp'
  cases ha : pr.act GPID_PROCESS with
  | sysAlloc k =>
      simp only [Progs.allocated, ha, update_self]
      rfl
  | appAlloc cmd ino =>
      rw [ha] at hboot
      have hn : 4 ≤ n := hboot
      simp only [Progs.allocated, ha, update_self]
      exact loads_loadNext (by omega)
  | _ =>
      rw [ha] at hop
      simp [Act.op] at hop

theorem ready {pid : ℤ} (h : InLoad st pr) (hop : pr.op GPID_PROCESS .messages = .ready pid) :
    InLoad (update st pid .user) (pr.readied GPID_PROCESS) := by
  rw [Progs.op] at hop
  intro p hp
  have hne : p ≠ pid := by
    rintro rfl
    rw [update_self] at hp
    simp at hp
  -- nobody else was loading
  have hl := h p (loading_of_update (by simp) hp)
  cases ha : pr.act GPID_PROCESS with
  | sysReady k pid' =>
      rw [ha] at hop hl
      exact absurd (hl.trans (Op.ready.inj hop)) hne
  | appReady cmd pid' =>
      rw [ha] at hop hl
      exact absurd (hl.1.trans (Op.ready.inj hop)) hne
  | _ =>
      rw [ha] at hop
      simp [Act.op] at hop

theorem retSend (h : InLoad st pr) :
    InLoad (update st p .user) (pr.setAct p (pr.act p).afterSend) := by
  refine h.keep (fun q hq => loading_of_update (by simp) hq) fun q hl => ?_
  by_cases hp : GPID_PROCESS = p
  · subst hp
    rw [pr.setAct_self]
    generalize pr.act GPID_PROCESS = b at hl
    cases b with
    | call r k => cases k <;> exact hl
    | sysReady | appReady | fatal | await => exact hl
    | _ => exact hl.elim
  · rw [pr.setAct_of_ne p hp]
    exact hl

theorem retRecv (h : InLoad st pr) (hserv : Serving env .messages st pr n)
    (hst : st p = .got q m) : InLoad (update st p .user) (pr.received env p q m) := by
  have hne : st p ≠ .unborn := by rw [hst]; simp
  have hloc := hserv.loc p hne
  have hop := hloc.stage
  rw [hst] at hop
  have hact : (pr.received env p q m).act =
      update pr.act p ((pr.act p).afterRecv env p q m) := by
    rw [Progs.received]
    split <;> rfl
  refine h.keep (fun q hq => loading_of_update (by simp) hq) fun pid hl => ?_
  rw [hact]
  by_cases hp : GPID_PROCESS = p
  · subst hp
    rw [update_self]
    -- only a block of the program can be received
    cases ha : pr.act GPID_PROCESS with
    | await r k =>
        rw [ha] at hl
        cases k with
        | load cmd pid' ino blocks =>
            obtain ⟨rfl, rfl⟩ := hloc.got _ _ _ _ hst ha
            have hfit := hloc.fits
            rw [ha] at hfit
            obtain ⟨-, ino', offset, rfl⟩ := hfit
            obtain ⟨rfl, h5⟩ := hl
            exact loads_loadNext h5
        | _ => exact hl.elim
    | call r k =>
        rw [ha] at hop
        exact absurd hop Act.op_call_ne_recv
    | sysReady | appReady | fatal =>
        rw [ha] at hop
        simp [StageFits, Act.op] at hop
    | _ =>
        rw [ha] at hl
        exact hl.elim
  · rw [update_of_ne hp]
    exact hl

theorem step (h : InLoad st pr) (hserv : Serving env .messages st pr n)
    (hkind : ∀ e, T e → TrapKind e) (hs : ProgStep env .messages T A st pr n st' pr' n') :
    InLoad st' pr' := by
  cases hs with
  | quiet => exact h
  | trap hs he => exact h.trap hs (hkind _ he)
  | send =>
      refine h.keep (fun q hq => loading_of_update (by simp) hq) fun q hl => ?_
      rw [Progs.note]
      split <;> exact hl
  | recv => exact h.keep (fun q hq => loading_of_update (by simp) hq) fun _ hl => hl
  | answer _ _ hop =>
      rw [Progs.op] at hop
      cases ha : pr.act _ <;> rw [ha] at hop <;> simp [Act.op] at hop
  | alloc _ _ hop => exact h.alloc hserv hop
  | ready _ _ hop => exact h.ready hop
  | free _ _ hop =>
      refine h.keep (fun q hq => ?_) fun q hl => ?_
      · split at hq
        · simp at hq
        · exact hq
      · rw [Progs.act_of_free hop] at hl
        exact hl.elim
  | retSend => exact h.retSend
  | retRecv hst => exact h.retRecv hserv hst
  | @choose p c a hst hc =>
      refine h.keep (fun _ hq => hq) fun q hl => ?_
      by_cases hp : GPID_PROCESS = p
      · subst hp
        rcases Act.choose_cases hc with ha | ha <;> rw [ha] at hl <;> exact hl.elim
      · rw [pr.setAct_of_ne p hp]
        exact hl

end InLoad

/-! ### Who is to notify `sys_proc` -/

/-- **While `sys_proc` waits for a notification, there is a server to send it.** -/
def Notified (st : ℤ → Stage ℤ (Msg B)) (pr : Progs B) : Prop :=
  ∀ k : ℕ, pr.act GPID_PROCESS = .sysWait k → (∀ s m, st GPID_PROCESS ≠ .got s m) →
    Notifier (st ((k : ℤ) + 2)) (pr.act ((k : ℤ) + 2))

namespace Notified

variable {T : Ev ℤ (Msg B) → Prop} {A : ℤ → Prop}

/-- A change to one process. -/
theorem set (h : Notified st pr) (hact : ∀ q, q ≠ p → pr'.act q = pr.act q)
    (hproc : p = GPID_PROCESS → ∀ k, pr'.act p = .sysWait k → (∀ s m, x ≠ .got s m) →
      pr.act p = .sysWait k ∧ ∀ s m, st p ≠ .got s m)
    (hnote : p ≠ GPID_PROCESS → Notifier (st p) (pr.act p) → Notifier x (pr'.act p)) :
    Notified (update st p x) pr' := by
  intro k ha hgot
  have hk1 : (k : ℤ) + 2 ≠ GPID_PROCESS := by change (k : ℤ) + 2 ≠ 1; omega
  by_cases hp : GPID_PROCESS = p
  · subst hp
    rw [update_self] at hgot
    rw [update_of_ne hk1, hact _ hk1]
    obtain ⟨ha', hgot'⟩ := hproc rfl k ha hgot
    exact h k ha' hgot'
  · rw [update_of_ne hp] at hgot
    rw [hact _ hp] at ha
    have hn := h k ha hgot
    by_cases hkp : (k : ℤ) + 2 = p
    · rw [hkp] at hn ⊢
      rw [update_self]
      exact hnote (Ne.symm hp) hn
    · rw [update_of_ne hkp, hact _ hkp]
      exact hn

/-- A change to the stage of a process. -/
theorem setStage (h : Notified st pr) (hgot : ∀ s m, st p ≠ .got s m)
    (hnote : p ≠ GPID_PROCESS → pr.act p = .notify → NotSent x ∧ x ≠ .dead ∧ x ≠ .unborn) :
    Notified (update st p x) pr :=
  h.set (fun _ _ => rfl) (fun _ _ ha _ => ⟨ha, hgot⟩) fun hp hn => ⟨hn.1, hnote hp hn.1⟩

/-- What a server sends first goes to `sys_proc`, and it does not receive. -/
theorem send_of_notify {mode : Mode} {tag : ℤ × ℕ} (ha : a = .notify)
    (hop : a.op mode tag = .send q m) : q = GPID_PROCESS := by
  rw [ha] at hop
  exact (Op.send.inj hop).1.symm

theorem deliver (h : Notified st pr) (hserv : Serving env .messages st pr n)
    (hp : st p = .sendCall q m ∨ st p = .waitSend q m)
    (hq : st q = .waitRecv ∨ st q = .recvCall) :
    Notified (update (update st p (.sent q m true)) q (.got p m)) pr := by
  obtain ⟨-, -, -, hop⟩ := hserv.of_sending hp
  obtain ⟨-, -, hoq⟩ := hserv.of_receiving hq
  have hpq : p ≠ q := by
    rintro rfl
    rcases hp with hp | hp <;> rcases hq with hq | hq <;> rw [hp] at hq <;> simp at hq
  by_cases hq1 : q = GPID_PROCESS
  · subst hq1
    intro k _ hgot
    rw [update_self] at hgot
    exact absurd rfl (hgot p m)
  · have hsent : Notified (update st p (.sent q m true)) pr :=
      h.setStage (by rcases hp with hp | hp <;> rw [hp] <;> simp)
        fun _ ha => absurd (send_of_notify ha hop) hq1
    refine hsent.setStage ?_ fun _ ha => ?_
    · rw [update_of_ne hpq.symm]
      rcases hq with hq | hq <;> rw [hq] <;> simp
    · rw [ha] at hoq
      simp [Act.op] at hoq

theorem trap {e : Ev ℤ (Msg B)} (h : Notified st pr) (hserv : Serving env .messages st pr n)
    (h1 : st GPID_PROCESS ≠ .dead ∧ st GPID_PROCESS ≠ .unborn) (hs : Step st e st')
    (he : TrapKind e) : Notified st' pr := by
  cases hs with
  | @fail p q m hp hq =>
      refine h.setStage (by rw [hp]; simp) fun _ ha => ?_
      have hq1 := send_of_notify ha (hserv.of_sending (Or.inl hp)).2.2.2
      rw [hq1] at hq
      exact (hq.elim h1.1 h1.2).elim
  | block hp _ => exact h.setStage (by rw [hp]; simp) fun _ _ => ⟨trivial, by simp, by simp⟩
  | wait hq _ => exact h.setStage (by rw [hq]; simp) fun _ _ => ⟨trivial, by simp, by simp⟩
  | give hp hq => exact h.deliver hserv (Or.inl hp) (Or.inl hq)
  | take hq hp => exact h.deliver hserv (Or.inr hp) (Or.inr hq)
  | sysSend | sysRecv | retSend | retRecv | spawn | ready | kill => exact he.elim

/-- `sys_proc` does not wait for a notification. -/
theorem of_ne (h : ∀ k, pr'.act GPID_PROCESS ≠ .sysWait k) : Notified st' pr' :=
  fun k ha => absurd ha (h k)

theorem ready {pid : ℤ} (hserv : Serving env .messages st pr n)
    (hop : pr.op GPID_PROCESS .messages = .ready pid) (hpid : st pid = .loading) :
    Notified (update st pid .user) (pr.readied GPID_PROCESS) := by
  have hboot := hserv.boot
  have hstart : pr.act pid = .start pid := by
    have hs := (hserv.loc pid (by rw [hpid]; simp)).stage
    rwa [hpid] at hs
  rw [Progs.op] at hop
  cases ha : pr.act GPID_PROCESS with
  | sysReady k pid' =>
      rw [ha] at hop hboot
      obtain rfl : pid' = pid := Op.ready.inj hop
      obtain ⟨-, rfl, hk⟩ := hboot
      have hne : (k : ℤ) + 2 ≠ GPID_PROCESS := by change (k : ℤ) + 2 ≠ 1; omega
      intro k' hk' _
      simp only [Progs.readied, ha, Progs.setAct, update_self] at hk' ⊢
      split at hk'
      · obtain rfl := Act.sysWait.inj hk'
        rw [update_self, update_of_ne hne, hstart, Act.start, if_pos]
        · exact ⟨rfl, trivial, by simp, by simp⟩
        · change (k : ℤ) + 2 = 2 ∨ (k : ℤ) + 2 = 3
          omega
      · simp at hk'
  | appReady cmd pid' =>
      refine of_ne fun k => ?_
      simp [Progs.readied, ha, Progs.setAct]
  | _ =>
      rw [ha] at hop
      simp [Act.op] at hop

theorem step (h : Notified st pr) (hserv : Serving env .messages st pr n)
    (h1 : st GPID_PROCESS ≠ .dead ∧ st GPID_PROCESS ≠ .unborn)
    (hkind : ∀ e, T e → TrapKind e) (hs : ProgStep env .messages T A st pr n st' pr' n') :
    Notified st' pr' := by
  cases hs with
  | quiet => exact h
  | trap hs he => exact h.trap hserv h1 hs (hkind _ he)
  | @send p q m _ hst hop =>
      have hnote : (pr.note p).act = pr.act := by
        rw [Progs.note]
        split <;> rfl
      refine h.set (fun _ _ => by rw [hnote]) (fun _ k ha _ => ?_) fun hp hn => ?_
      · rw [hnote] at ha
        exact ⟨ha, by rw [hst]; simp⟩
      · rw [hnote]
        exact ⟨hn.1, trivial, by simp, by simp⟩
  | recv _ hst _ => exact h.setStage (by rw [hst]; simp) fun _ _ => ⟨trivial, by simp, by simp⟩
  | answer _ _ hop =>
      rw [Progs.op] at hop
      cases ha : pr.act _ <;> rw [ha] at hop <;> simp [Act.op] at hop
  | alloc _ _ hop =>
      refine of_ne fun k => ?_
      rw [Progs.op] at hop
      cases ha : pr.act GPID_PROCESS with
      | sysAlloc => simp [Progs.allocated, ha]
      | appAlloc =>
          simp only [Progs.allocated, ha, update_self, Act.loadNext]
          split <;> simp
      | _ =>
          rw [ha] at hop
          simp [Act.op] at hop
  | ready _ _ hop hpid => exact ready hserv hop hpid
  | free =>
      refine of_ne fun k => ?_
      simp only [Progs.freed, Progs.setAct, update_self]
      split <;> simp
  | @retSend p q m ok hst =>
      have hop := (hserv.loc p (by rw [hst]; simp)).stage
      rw [hst] at hop
      have hop' : (pr.act p).op .messages (pr.tag p) = .send q m := hop
      refine h.set (fun q hq => pr.setAct_of_ne p hq _) (fun _ k ha _ => ?_) fun _ hn => ?_
      · rw [pr.setAct_self] at ha
        cases hact : pr.act p <;> rw [hact] at hop' ha <;> simp [Act.op, Act.afterSend] at hop' ha
      · have hsent := hn.2.1
        rw [hst] at hsent
        exact hsent.elim
  | @retRecv p q m hst =>
      have hop := (hserv.loc p (by rw [hst]; simp)).stage
      rw [hst] at hop
      have hact : (pr.received env p q m).act =
          update pr.act p ((pr.act p).afterRecv env p q m) := by
        rw [Progs.received]
        split <;> rfl
      refine h.set (fun q' hq => by rw [hact, update_of_ne hq]) (fun _ k ha _ => ?_)
        fun _ hn => ?_
      · rw [hact, update_self] at ha
        have honward := Act.onward_afterRecv env p q m hop
        rw [ha] at honward
        exact honward.elim
      · rw [hn.1] at hop
        simp [StageFits, Act.op] at hop
  | @choose p c a hst hc =>
      have hupd : update st p .user = st := by rw [← hst, update_eq_self]
      rw [← hupd]
      refine h.set (fun q hq => pr.setAct_of_ne p hq _) (fun _ k ha _ => ?_) fun _ hn => ?_
      · rw [pr.setAct_self] at ha
        rcases Act.choose_cases hc with hp | hp <;> rw [hp] at hc <;> cases c <;>
          simp [Act.choose] at hc <;> subst hc <;> simp at ha
      · rcases Act.choose_cases hc with hp | hp <;> rw [hp] at hn <;> simp [Notifier] at hn

end Notified

/-! ### Senders and receivers -/

/-- **Nobody waits to send to a process that waits to receive.** -/
def Met (st : ℤ → Stage ℤ (Msg B)) : Prop := ∀ p q m, st p = .waitSend q m → st q ≠ .waitRecv

namespace Met

variable {T : Ev ℤ (Msg B) → Prop} {A : ℤ → Prop}

/-- A process does not start to wait. -/
theorem set (h : Met st) (hs : ∀ q m, x ≠ .waitSend q m) (hr : x ≠ .waitRecv) :
    Met (update st p x) := by
  intro c q m hc
  by_cases hcp : c = p
  · subst hcp
    rw [update_self] at hc
    exact absurd hc (hs q m)
  · rw [update_of_ne hcp] at hc
    by_cases hqp : q = p
    · subst hqp
      rw [update_self]
      exact hr
    · rw [update_of_ne hqp]
      exact h c q m hc

theorem trap {e : Ev ℤ (Msg B)} (h : Met st) (hs : Step st e st') (he : TrapKind e) : Met st' := by
  cases hs with
  | fail => exact h.set (by simp) (by simp)
  | give | take => exact (h.set (by simp) (by simp)).set (by simp) (by simp)
  | @block p q m hp hq =>
      intro c q' m' hc
      by_cases hcp : c = p
      · subst hcp
        rw [update_self] at hc
        obtain ⟨rfl, rfl⟩ := Stage.waitSend.inj hc
        by_cases hqc : q = c
        · rw [hqc, update_self]
          simp
        · rw [update_of_ne hqc]
          exact hq
      · rw [update_of_ne hcp] at hc
        by_cases hqp : q' = p
        · rw [hqp, update_self]
          simp
        · rw [update_of_ne hqp]
          exact h c q' m' hc
  | @wait q hq hs =>
      intro c q' m' hc
      have hcq : c ≠ q := by
        rintro rfl
        rw [update_self] at hc
        simp at hc
      rw [update_of_ne hcq] at hc
      by_cases hqq : q' = q
      · subst hqq
        exact absurd hc (hs c m')
      · rw [update_of_ne hqq]
        exact h c q' m' hc
  | sysSend | sysRecv | retSend | retRecv | spawn | ready | kill => exact he.elim

theorem step (h : Met st) (hkind : ∀ e, T e → TrapKind e)
    (hs : ProgStep env .messages T A st pr n st' pr' n') : Met st' := by
  cases hs with
  | quiet | answer | choose => exact h
  | trap hs he => exact h.trap hs (hkind _ he)
  | send | recv | alloc | ready | retSend | retRecv => exact h.set (by simp) (by simp)
  | free =>
      intro c q m hc
      dsimp only at hc ⊢
      split at hc
      · simp at hc
      · split
        · simp
        · exact h c q m hc

end Met

/-! ### Processes of the user -/

/-- `app_spawn` creates processes of the user. -/
def UserSpawns (pr : Progs B) : Prop := ∀ pid, Event.spawn pid ∈ pr.events → 5 ≤ pid

/-- What `sys_proc` says of a process, it has created. -/
theorem Talk.spawn_mem {es : List Event} {pid : ℤ} :
    ∀ {t : Talk}, Talk.run es = some t →
      (∃ cmd, t = .spawned cmd pid) ∨ t = .running pid ∨ t = .ended pid →
      Event.spawn pid ∈ es := by
  induction es using List.reverseRecOn with
  | nil =>
      intro t ht hpid
      obtain rfl := Option.some.inj ht
      simp at hpid
  | append_singleton es e ih =>
      intro t ht hpid
      rw [Talk.run, List.foldlM_append] at ht
      obtain ⟨t₀, ht₀, hnext⟩ := Option.bind_eq_some_iff.1 ht
      simp only [List.foldlM_cons, List.foldlM_nil, bind_pure] at hnext
      have hmem := @ih t₀ ht₀
      refine List.mem_append.2 ?_
      -- the process is named by the event, or it was named before
      cases t₀ with
      | idle => cases e <;> simp [Talk.next] at hnext <;> subst hnext <;> simp at hpid
      | asked cmd =>
          cases e with
          | spawn pid' =>
              simp only [Talk.next, Option.some.injEq] at hnext
              subst hnext
              simp only [Talk.spawned.injEq, reduceCtorEq, or_false] at hpid
              obtain ⟨cmd', -, rfl⟩ := hpid
              exact Or.inr (List.mem_singleton.2 rfl)
          | tell ok =>
              cases ok <;> simp [Talk.next] at hnext
              subst hnext
              simp at hpid
          | request | killall | exit => simp [Talk.next] at hnext
      | spawned cmd pid' =>
          refine Or.inl (hmem (Or.inl ⟨cmd, ?_⟩))
          cases e with
          | tell ok =>
              cases ok with
              | false => simp [Talk.next] at hnext
              | true =>
                  simp only [Talk.next, Option.some.injEq] at hnext
                  subst hnext
                  split at hpid <;> simp at hpid
                  rw [hpid]
          | request | killall | exit | spawn => simp [Talk.next] at hnext
      | running pid' =>
          refine Or.inl (hmem (Or.inr (Or.inl ?_)))
          cases e with
          | exit pid'' =>
              simp only [Talk.next, Option.some.injEq] at hnext
              subst hnext
              split at hpid <;> simp at hpid <;> rw [hpid]
          | request | killall | tell | spawn => simp [Talk.next] at hnext
      | ended pid' =>
          cases e with
          | tell ok =>
              simp only [Talk.next, Option.some.injEq] at hnext
              subst hnext
              simp at hpid
          | request | killall | exit | spawn => simp [Talk.next] at hnext

namespace UserSpawns

variable {T : Ev ℤ (Msg B) → Prop} {A : ℤ → Prop}

theorem append (h : UserSpawns pr) {l : List Event} (he : pr'.events = pr.events ++ l)
    (hl : ∀ pid, Event.spawn pid ∈ l → 5 ≤ pid) : UserSpawns pr' := by
  intro pid hpid
  rw [he] at hpid
  exact (List.mem_append.1 hpid).elim (h pid) (hl pid)

theorem step (h : UserSpawns pr) (hserv : Serving env .messages st pr n)
    (hs : ProgStep env .messages T A st pr n st' pr' n') : UserSpawns pr' := by
  cases hs with
  | quiet | trap | recv | choose | retSend => exact h
  | send =>
      rw [Progs.note]
      split
      · exact h.append rfl (by simp)
      · exact h.append rfl (by simp)
      · exact h
  | answer _ _ hop =>
      rw [Progs.op] at hop
      cases ha : pr.act _ <;> rw [ha] at hop <;> simp [Act.op] at hop
  | alloc =>
      have hboot := hserv.boot
      cases ha : pr.act GPID_PROCESS with
      | appAlloc cmd ino =>
          rw [ha] at hboot
          have hn : 4 ≤ n := hboot
          refine h.append (l := [.spawn ((n : ℤ) + 1)]) (by simp only [Progs.allocated, ha])
            fun pid hpid => ?_
          rw [Event.spawn.inj (List.mem_singleton.1 hpid)]
          omega
      | _ =>
          intro pid hpid
          simp only [Progs.allocated, ha] at hpid
          exact h pid hpid
  | ready =>
      rw [Progs.readied]
      split <;> exact h
  | free => exact h.append rfl (by split <;> simp)
  | @retRecv p q m _ =>
      rw [Progs.received]
      split
      · exact h
      · refine h.append rfl ?_
        split
        · cases m.body <;> simp [Progs.requests]
        · simp
      · exact h

end UserSpawns

/-! ### The invariant -/

/-- **What keeps the processes going.** -/
structure Flowing (env : Env B) (st : ℤ → Stage ℤ (Msg B)) (pr : Progs B) (n : ℕ) (t : Talk) : Prop
    extends Talking env st pr n t where
  served : Served st pr
  servers : ∀ r : Request, st r.server ≠ .dead
  load : InLoad st pr
  notified : Notified st pr
  met : Met st
  spawns : UserSpawns pr

namespace Flowing

variable {T : Ev ℤ (Msg B) → Prop} {A : ℤ → Prop}

/-- `sys_proc` is there. -/
theorem process (h : Flowing env st pr n t) :
    st GPID_PROCESS ≠ .dead ∧ st GPID_PROCESS ≠ .unborn :=
  ⟨fun hd => h.dialogue.live.1 (shown_eq_dead.2 hd),
    fun hu => Dialogue.proc_born h.atomic (shown_eq_unborn.2 hu)⟩

/-- `sys_proc` frees processes of the user only. -/
theorem goneBy_server (h : Flowing env st pr n t) {pid : ℤ}
    (ha : pr.act GPID_PROCESS = .procFree pid) (r : Request) :
    Sys.goneBy st pid r.server = false := by
  have hfits := h.dialogue.fits
  rw [show pr.atomic.act GPID_PROCESS = .procFree pid from congrArg Act.whole ha] at hfits
  have hserver := Serving.server_eq r
  rcases hfits.2 with ⟨rfl, -⟩ | ⟨h5, -⟩
  · rw [Sys.goneBy, if_pos rfl, decide_eq_false, Bool.false_and]
    change ¬ r.server ≥ 5
    omega
  · have h5' : pid ≥ 5 := h5
    rw [Sys.goneBy, if_neg (by omega), decide_eq_false (by omega), Bool.false_and]

/-- The servers are not killed. -/
theorem servers_step (h : Flowing env st pr n t) (hkind : ∀ e, T e → TrapKind e)
    (hs : ProgStep env .messages T A st pr n st' pr' n') (r : Request) : st' r.server ≠ .dead := by
  have hlive := h.servers r
  have hset : ∀ (p : ℤ) (x : Stage ℤ (Msg B)), x ≠ .dead →
      update st p x r.server ≠ .dead := by
    intro p x hx
    by_cases hp : r.server = p
    · rw [hp, update_self]
      exact hx
    · rw [update_of_ne hp]
      exact hlive
  cases hs with
  | quiet | answer | choose => exact hlive
  | send | recv | alloc | ready | retSend | retRecv => exact hset _ _ (by simp)
  | @free pid _ _ hop =>
      dsimp only
      rw [h.goneBy_server (Progs.act_of_free hop) r]
      exact hlive
  | trap hs he =>
      cases hs with
      | fail | block | wait => exact hset _ _ (by simp)
      | @give p q | @take p q =>
          by_cases hq : r.server = q
          · rw [hq, update_self]
            simp
          · rw [update_of_ne hq]
            exact hset _ _ (by simp)
      | sysSend | sysRecv | retSend | retRecv | spawn | ready | kill => exact (hkind _ he).elim

/-- **Every step keeps the invariant.** -/
theorem step (h : Flowing env st pr n t) (hkind : ∀ e, T e → TrapKind e)
    (hT : ∀ e st', Step st e st' → T e → Serving.Fair pr e)
    (hord : A GPID_PROCESS → ∀ pid, pr.op GPID_PROCESS .atomic = .free pid →
      ¬ (pid = pr.appPid ∧ pr.shellWaiting = true ∧ pr.spawnOk = false))
    (hs : ProgStep env .messages T A st pr n st' pr' n') : ∃ t', Flowing env st' pr' n' t' := by
  obtain ⟨t', ht'⟩ := h.toTalking.step hkind hT hord hs
  exact ⟨t', ht', h.served.step h.serving h.servers hT (fun _ ha => h.goneBy_server ha) hs,
    h.servers_step hkind hs, h.load.step h.serving hkind hs,
    h.notified.step h.serving h.process hkind hs, h.met.step hkind hs,
    h.spawns.step h.serving hs⟩

end Flowing

end Egos
