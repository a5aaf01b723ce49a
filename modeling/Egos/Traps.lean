/-
**Runs of the kernel alone.**

`Egos/Ipc.lean` follows the calls of the processes.  Here the processes are left open: between two
traps the current process may do anything to its registers and to its `struct syscall`, and
`GPID_PROCESS` creates and frees processes in any order.  What the process table satisfies in every
such run is all that saving contexts, delivering messages and freeing processes by pid rest on.

Main definitions:

* `Egos.Grass`, `Egos.Grass.step`, `Egos.Grass.run` — the kernel, entered from outside in any order.

Main results:

* `Egos.Grass.processTable_ok` — **the invariant of the process table**;
* `Egos.Grass.rendezvous_not_missed` — no process waits to send to a process that waits to receive;
* `Egos.Grass.resumed_at_exit_iff` — where a process continues after a ctrl+c.
-/

import Egos.KernelSpec

set_option autoImplicit false

namespace Egos

open Function (update update_of_ne update_self)

/-! ### Entering the kernel from outside -/

namespace Kernel

variable {M : Type}

/-- The current process has run: its `struct syscall`, its program counter and its registers are as
it left them. -/
def userRuns (k : Kernel M) (sc : Syscall M) (mepc : UInt32) (registers : Fin 29 → UInt32) :
    Kernel M :=
  { k.setSc (fun _ => sc) with mepc := mepc, registers := registers }

/-- A trap of the current process. -/
def trap (k : Kernel M) (id : IntrId) (tty : Bool) (sc : Syscall M) (mepc : UInt32)
    (registers : Fin 29 → UInt32) : Except String (Kernel M) :=
  (k.userRuns sc mepc registers).kernelEntry id tty

end Kernel

/-- The kernel, with the slots and the pids that `proc_alloc` has given out so far. -/
structure Grass (M : Type) where
  kernel : Kernel M
  given : List (Fin 8 × ℤ)

/-- How the kernel is entered. -/
inductive Entry (M : Type)
  /-- An interrupt, which finds the machine as the current process left it. -/
  | trap (id : Kernel.IntrId) (tty : Bool) (sc : Syscall M) (mepc : UInt32)
      (registers : Fin 29 → UInt32)
  /-- `GPID_PROCESS` manages processes. -/
  | procAlloc
  | procSetReady (pid : ℤ)
  | procFree (pid : ℤ)

namespace Grass

variable {M : Type}

/-- **One entry.**  `GPID_PROCESS` sets other processes ready by the pids that `proc_alloc` returned
to it, and it does not free itself. -/
def step (s : Grass M) : Entry M → Option (Grass M)
  | .trap id tty sc mepc registers =>
      match s.kernel.trap id tty sc mepc registers with
      | .ok k => some { s with kernel := k }
      | .error _ => none
  | .procAlloc =>
      if s.kernel.currPid = GPID_PROCESS then
        match s.kernel.findUnused, s.kernel.procAlloc with
        | some i, .ok (pid, k) => some { kernel := k, given := (i, pid) :: s.given }
        | _, _ => none
      else none
  | .procSetReady pid =>
      if s.kernel.currPid = GPID_PROCESS ∧ pid ≠ GPID_PROCESS ∧ pid ∈ s.given.map Prod.snd then
        some { s with kernel := s.kernel.procSetReady pid }
      else none
  | .procFree pid =>
      if s.kernel.currPid = GPID_PROCESS ∧ pid ≠ GPID_PROCESS then
        some { s with kernel := s.kernel.procFree pid }
      else none

/-- A run of the kernel. -/
def run (s : Grass M) (es : List (Entry M)) : Option (Grass M) := es.foldlM step s

/-- `main` of `grass.c` has allocated the slot of the first process. -/
def boot (mem : ℤ → Syscall M) (registers : Fin 29 → UInt32) : Grass M :=
  { kernel := Kernel.boot mem registers
    given := [(0, GPID_PROCESS)] }

/-- The processes that a run creates. -/
def allocs (es : List (Entry M)) : ℕ := es.countP fun e => match e with
  | .procAlloc => true
  | _ => false

end Grass

/-! ### What an entry does -/

namespace Kernel

variable {M : Type} {k k' : Kernel M}

/-- The code of a process does not touch the process table. -/
theorem AtUser.userRuns (hk : k.AtUser) (sc : Syscall M) (mepc : UInt32)
    (registers : Fin 29 → UInt32) : (k.userRuns sc mepc registers).AtUser :=
  ⟨hk.toTableOk.congr _ rfl rfl, hk.running, hk.vm⟩

/-- The states of the processes after a trap: unchanged, or what the system call of the current
process makes of them. -/
theorem trap_spec {id : IntrId} {tty : Bool} {sc : Syscall M} {mepc : UInt32}
    {registers : Fin 29 → UInt32} (hk : k.AtUser) (h : k.trap id tty sc mepc registers = .ok k') :
    k'.AtUser ∧ k'.procNprocs = k.procNprocs ∧ (∀ i, (k'.procSet i).pid = (k.procSet i).pid) ∧
      (k'.view = k.view ∨
        Handled (k.userRuns sc mepc registers) k.currPid k'.view k'.mem) := by
  have hk₀ := hk.userRuns sc mepc registers
  cases id with
  | timer =>
      obtain ⟨hk', hsame⟩ := kernelEntry_timer hk₀ h
      exact ⟨hk', hsame.nprocs, hsame.pid, Or.inl hsame.view⟩
  | soft =>
      obtain ⟨hk', hn, hp, hcase⟩ := kernelEntry_soft hk₀ h
      refine ⟨hk', hn, hp, ?_⟩
      split at hcase
      · exact Or.inl hcase.1
      · exact Or.inr hcase

/-- Setting a process ready that is not the current one.  The pid need not be in the table any
more. -/
theorem AtUser.procSetReady {pid : ℤ} (hk : k.AtUser) (h0 : pid ≠ 0) (hne : pid ≠ k.currPid) :
    (k.procSetReady pid).AtUser ∧ (∀ i, ((k.procSetReady pid).procSet i).pid = (k.procSet i).pid) ∧
      (∀ p, (k.procSetReady pid).view p = k.view p ∨ (k.procSetReady pid).view p = .run) := by
  cases hf : k.findPid pid with
  | none =>
      have hsame : (k.procSetReady pid).procSet = k.procSet := by
        funext i
        simp only [Kernel.procSetReady, Kernel.procSetStatus, if_neg (findPid_none hf i)]
      refine ⟨⟨hk.toTableOk.congr _ hsame rfl, fun i => ?_, ?_⟩, fun i => by rw [hsame],
        fun p => Or.inl (congrFun (view_congr hsame) p)⟩
      · rw [hsame]
        exact hk.running i
      · rw [currPid, hsame]
        exact hk.vm
  | some i =>
      obtain rfl := findPid_some hf
      have hic : k.procCurrIdx ≠ i := by
        rintro rfl
        exact hne rfl
      rw [Kernel.procSetReady, hk.procSetStatus h0]
      refine ⟨hk.setProc_of_ne_curr hic h0 rfl (by simp), pid_setProc rfl, fun p => ?_⟩
      rw [hk.view_setProc rfl h0]
      by_cases hp : p = (k.procSet i).pid
      · rw [hp, update_self]
        exact Or.inr rfl
      · rw [update_of_ne hp]
        exact Or.inl rfl

theorem pid_freed (k : Kernel M) (gone : ℤ → Prop) [DecidablePred gone] (i : Fin 8) :
    ((k.freed gone).procSet i).pid = (k.procSet i).pid := by
  simp only [Kernel.freed]
  split <;> rfl

/-- Freeing a process changes its own slot at most. -/
theorem status_freed {gone : ℤ → Prop} [DecidablePred gone] {i : Fin 8}
    (h : ((k.freed gone).procSet i).status ≠ (k.procSet i).status) : gone (k.procSet i).pid := by
  by_contra hg
  simp only [Kernel.freed, if_neg hg] at h
  exact h rfl

/-- The kernel restores what it saved before ctrl+c made it set the program counter. -/
theorem kernelEntry_ctrlC (k : Kernel M) (id : IntrId) (huser : k.currPid ≥ GPID_USER_START) :
    ∃ k', k.kernelEntry id true = .ok k' ∧ k'.currPid = k.currPid ∧ k'.mepc = k.mepc := by
  rw [kernelEntry]
  -- the state with the context of the process saved
  generalize hk₀ : (k.setProc k.procCurrIdx fun p =>
    { p with mepc := k.mepc, savedRegister := k.registers }) = k₀
  have hpid : k₀.currPid = k.currPid := by
    rw [← hk₀]
    exact pid_setProc rfl _
  have hsaved : (k₀.procSet k₀.procCurrIdx).mepc = k.mepc := by
    rw [← hk₀]
    exact congrArg Process.mepc (setProc_self k k.procCurrIdx _)
  have htimer : ¬ (id = .timer ∧ k.currPid < GPID_SHELL) := by
    rintro ⟨-, hlt⟩
    exact absurd (lt_of_lt_of_le hlt (by decide)) (not_lt.2 huser)
  have hintr : k₀.intrEntry id true = .ok { k₀ with mepc := 0x800500C } := by
    unfold intrEntry
    rw [hpid, if_neg htimer, if_pos ⟨rfl, huser⟩]
  refine ⟨{ k₀ with
    mepc := (k₀.procSet k₀.procCurrIdx).mepc
    registers := (k₀.procSet k₀.procCurrIdx).savedRegister }, ?_, hpid, hsaved⟩
  rw [hintr]
  rfl

theorem pid_procAlloc {pid : ℤ} {i : Fin 8} (hi : k.findUnused = some i)
    (hn : k.procNprocs + 1 < 2 ^ 31) (h : k.procAlloc = .ok (pid, k')) (j : Fin 8) :
    (k'.procSet j).pid = if j = i then pid else (k.procSet j).pid := by
  rw [procAlloc_eq hi hn, Except.ok.injEq, Prod.mk.injEq] at h
  obtain ⟨rfl, rfl⟩ := h
  by_cases hj : j = i
  · subst hj
    simp [setProc]
  · simp [setProc, hj]

end Kernel

/-- A process that cannot run was not the one woken up. -/
theorem of_update_run {v : ℤ → PView} {p q : ℤ} {x : PView} (h : update v q .run p = x)
    (hx : x ≠ .run) : v p = x := by
  by_cases hp : p = q
  · rw [hp, update_self] at h
    exact absurd h.symm hx
  · rwa [update_of_ne hp] at h

namespace Grass

variable {M : Type} {s s' : Grass M}

/-! ### The process table in every run -/

/-- **The invariant of the runs.** -/
structure Ok (s : Grass M) : Prop where
  kernel : s.kernel.AtUser
  /-- The slots with a pid are those that were allocated. -/
  slot : ∀ i, (s.kernel.procSet i).pid ≠ 0 ↔ i ∈ s.given.map Prod.fst
  pid : ∀ p ∈ s.given.map Prod.snd, 0 < p

theorem boot_ok (mem : ℤ → Syscall M) (registers : Fin 29 → UInt32) : (boot mem registers).Ok := by
  refine ⟨Kernel.boot_atUser mem registers, fun i => ?_, ?_⟩
  · by_cases hi : i = 0
    · subst hi
      simp [boot, Kernel.boot]
    · simp [boot, Kernel.boot, hi]
  · simp [boot]

/-- A step that leaves the pids of the slots as they are. -/
theorem Ok.of_pid (h : s.Ok) {k : Kernel M} (hk : k.AtUser)
    (hpid : ∀ i, (k.procSet i).pid = (s.kernel.procSet i).pid) :
    ({ s with kernel := k } : Grass M).Ok := by
  refine ⟨hk, fun i => ?_, h.pid⟩
  rw [hpid]
  exact h.slot i

/-- The counter stays below the sign bit if it leaves room for the allocations to come. -/
def Room (s : Grass M) (es : List (Entry M)) : Prop :=
  s.kernel.procNprocs + allocs es < 2 ^ 31

/-- How the states of the processes change in a step. -/
inductive Change (s s' : Grass M) : Prop
  /-- The current process has made a system call. -/
  | handled (k₀ : Kernel M) (hv : k₀.view = s.kernel.view)
      (h : Kernel.Handled k₀ s.kernel.currPid s'.kernel.view s'.kernel.mem)
  /-- Some processes are created, made ready or freed. -/
  | managed (h : ∀ p, s'.kernel.view p = s.kernel.view p ∨ s'.kernel.view p = .run ∨
      s'.kernel.view p = .loading ∨ s'.kernel.view p = .dead)

/-- **What one entry preserves.** -/
theorem step_spec {e : Entry M} {es : List (Entry M)} (h : s.Ok) (hroom : s.Room (e :: es))
    (hs : s.step e = some s') : s'.Ok ∧ s'.Room es ∧ Change s s' := by
  have hle : allocs es ≤ allocs (e :: es) := by
    simp only [allocs, List.countP_cons]
    omega
  have hroom' : ∀ k : Kernel M, k.procNprocs = s.kernel.procNprocs →
      ({ s with kernel := k } : Grass M).Room es := by
    intro k hk
    simp only [Room, hk] at hroom ⊢
    omega
  cases e with
  | trap id tty sc mepc registers =>
      rw [step] at hs
      cases htrap : s.kernel.trap id tty sc mepc registers with
      | error e => simp [htrap] at hs
      | ok k =>
          simp only [htrap, Option.some.injEq] at hs
          subst hs
          obtain ⟨hk, hn, hpid, hcase⟩ := Kernel.trap_spec h.kernel htrap
          refine ⟨h.of_pid hk hpid, hroom' k hn, ?_⟩
          rcases hcase with hv | hhandled
          · exact .managed fun p => Or.inl (congrFun hv p)
          · exact .handled (s.kernel.userRuns sc mepc registers) rfl hhandled
  | procAlloc =>
      rw [step] at hs
      split at hs
      · cases hi : s.kernel.findUnused with
        | none => simp [hi] at hs
        | some i =>
            cases ha : s.kernel.procAlloc with
            | error e => simp [hi, ha] at hs
            | ok r =>
                obtain ⟨pid, k⟩ := r
                simp only [hi, ha, Option.some.injEq] at hs
                subst hs
                have hroom₁ : s.kernel.procNprocs + 1 + allocs es < 2 ^ 31 := by
                  simp only [Room, allocs, List.countP_cons_of_pos] at hroom ⊢
                  omega
                obtain ⟨hk, hpid, hn, -, hv, -⟩ :=
                  Kernel.procAlloc_spec h.kernel (by omega) ha
                have hpids := Kernel.pid_procAlloc hi (by omega) ha
                refine ⟨⟨hk, fun j => ?_, ?_⟩, ?_, .managed fun p => ?_⟩
                · rw [List.map_cons, List.mem_cons, ← h.slot j, hpids j]
                  by_cases hj : j = i
                  · simp only [hj, if_true, true_or, iff_true]
                    omega
                  · simp [hj]
                · intro p hp
                  rcases List.mem_cons.1 hp with hp | hp
                  · change p = pid at hp
                    omega
                  · exact h.pid p hp
                · rw [Room, hn]
                  exact hroom₁
                · rw [hv]
                  by_cases hp : p = pid
                  · rw [hp, update_self]
                    exact Or.inr (Or.inr (Or.inl rfl))
                  · rw [update_of_ne hp]
                    exact Or.inl rfl
      · simp at hs
  | procSetReady pid =>
      rw [step] at hs
      split at hs
      · rename_i hc
        obtain ⟨hcurr, hne, hmem⟩ := hc
        simp only [Option.some.injEq] at hs
        subst hs
        obtain ⟨hk, hpid, hv⟩ := h.kernel.procSetReady (h.pid pid hmem).ne'
          (by rw [hcurr]; exact hne)
        refine ⟨h.of_pid hk hpid, hroom' _ rfl, .managed fun p => ?_⟩
        rcases hv p with hv | hv
        · exact Or.inl hv
        · exact Or.inr (Or.inl hv)
      · simp at hs
  | procFree pid =>
      rw [step] at hs
      split at hs
      · rename_i hc
        obtain ⟨hcurr, hne⟩ := hc
        simp only [Option.some.injEq] at hs
        subst hs
        obtain ⟨hk, hv⟩ := Kernel.procFree_spec h.kernel pid (by
          rw [hcurr]
          split
          · decide
          · exact hne)
        refine ⟨h.of_pid hk fun i => ?_, hroom' _ ?_, .managed fun p => ?_⟩
        · rw [Kernel.procFree_eq]
          exact Kernel.pid_freed _ _ i
        · rw [Kernel.procFree_eq]
          rfl
        · have hvp := congrFun hv p
          by_cases hgone : if pid = -1 then p ≥ GPID_USER_START else p = pid
          · rw [if_pos hgone] at hvp
            exact Or.inr (Or.inr (Or.inr hvp))
          · rw [if_neg hgone] at hvp
            exact Or.inl hvp
      · simp at hs

/-- **The induction rule**: what holds when grass starts and is kept by every entry holds in every
state outside the kernel. -/
theorem run_induction {P : Grass M → Prop}
    (hstep : ∀ s s' : Grass M, s.Ok → P s → s'.Ok → Change s s' → P s') :
    ∀ (es : List (Entry M)) (s s' : Grass M), s.Ok → s.Room es → P s → s.run es = some s' →
      s'.Ok ∧ P s' := by
  intro es
  induction es with
  | nil =>
      intro s s' hok _ hP hrun
      obtain rfl : s = s' := Option.some.inj hrun
      exact ⟨hok, hP⟩
  | cons e es ih =>
      intro s s' hok hroom hP hrun
      rw [run, List.foldlM_cons] at hrun
      obtain ⟨s₁, h₁, hrest⟩ := Option.bind_eq_some_iff.1 hrun
      obtain ⟨hok₁, hroom₁, hchange⟩ := step_spec hok hroom h₁
      exact ih s₁ s' hok₁ hroom₁ (hstep s s₁ hok hP hok₁ hchange) hrest

theorem boot_room (mem : ℤ → Syscall M) (registers : Fin 29 → UInt32) {es : List (Entry M)}
    (h : 1 + allocs es < 2 ^ 31 - 1) : (boot mem registers).Room es := by
  change 1 + allocs es < 2 ^ 31
  omega

/-- **The invariant of the process table.**  Whenever control is outside the kernel, the slot of the
current process is the only one that runs; the pids of the slots that were ever allocated are
positive and distinct; `proc_free` changes the slot of its process, or those of user applications
only.  At any time, `proc_yield` selects a process that can be scheduled. -/
theorem processTable_ok (mem : ℤ → Syscall M) (registers : Fin 29 → UInt32) (es : List (Entry M))
    (hallocs : 1 + allocs es < 2 ^ 31 - 1) (hrun : (boot mem registers).run es = some s) :
    (∀ i, (s.kernel.procSet i).status = .running ↔ i = s.kernel.procCurrIdx) ∧
    (∀ i ∈ s.given.map Prod.fst, 0 < (s.kernel.procSet i).pid) ∧
    (∀ i ∈ s.given.map Prod.fst, ∀ j ∈ s.given.map Prod.fst,
      (s.kernel.procSet i).pid = (s.kernel.procSet j).pid → i = j) ∧
    (∀ p ≠ -1, ∀ i,
      ((s.kernel.procFree p).procSet i).status ≠ (s.kernel.procSet i).status →
        (s.kernel.procSet i).pid = p) ∧
    (∀ i, ((s.kernel.procFree (-1)).procSet i).status ≠ (s.kernel.procSet i).status →
      ¬ (s.kernel.procSet i).pid < GPID_USER_START) ∧
    (∀ (k : Kernel M) (next : Fin 8), k.nextIdx = some next →
      (k.procSet next).status ∉
        [ProcStatus.unused, .loading, .waitToSend, .waitToRecv]) := by
  obtain ⟨hok, -⟩ := run_induction (P := fun _ => True) (fun _ _ _ _ _ _ => trivial) es _ s
    (boot_ok mem registers) (boot_room mem registers hallocs) trivial hrun
  refine ⟨hok.kernel.running, fun i hi => ?_, fun i hi j _ hij => ?_, fun p hp i hi => ?_,
    fun i hi => ?_, fun k next hnext => ?_⟩
  · have h0 := (hok.slot i).2 hi
    have hle := (hok.kernel.le i).1
    omega
  · exact hok.kernel.inj i j hij ((hok.slot i).2 hi)
  · rw [Kernel.procFree_eq] at hi
    simpa [hp] using Kernel.status_freed hi
  · rw [Kernel.procFree_eq] at hi
    simpa using Kernel.status_freed hi
  · have hsched : Kernel.ProcStatus.schedulable (k.procSet next).status = true := by
      simpa using List.find?_some hnext
    intro hmem
    cases hs : (k.procSet next).status <;> simp [hs, Kernel.ProcStatus.schedulable] at hsched hmem

/-- `GPID_PROCESS` creates two processes and waits for a message, and the first of the two sends to
the second. -/
def sendToReady : List (Entry Unit) :=
  [.procAlloc, .procAlloc, .procSetReady 2, .procSetReady 3,
    .trap .soft false ⟨.recv, ⟨0, 0, ()⟩, 0⟩ APPS_ENTRY fun _ => 0,
    .trap .soft false ⟨.send, ⟨0, 3, ()⟩, 0⟩ APPS_ENTRY fun _ => 0]

/-- The other two processes wait, and the third one is the only one that runs. -/
theorem processTable_ok_sendToReady :
    ∃ s : Grass Unit, 1 + allocs sendToReady < 2 ^ 31 - 1 ∧
      (boot (fun _ => ⟨.unused, ⟨0, 0, ()⟩, 0⟩) fun _ => 0).run sendToReady = some s ∧
      s.kernel.procCurrIdx = 2 ∧ (s.kernel.procSet 0).status = .waitToRecv ∧
      (s.kernel.procSet 1).status = .waitToSend ∧
      ∀ i, (s.kernel.procSet i).status = .running ↔ i = s.kernel.procCurrIdx := by
  have hrun : ((boot (fun _ => ⟨.unused, ⟨0, 0, ()⟩, 0⟩) fun _ => 0).run sendToReady).any (fun s =>
      s.kernel.procCurrIdx = 2 ∧ (s.kernel.procSet 0).status = .waitToRecv ∧
        (s.kernel.procSet 1).status = .waitToSend) = true := by decide +kernel
  obtain ⟨s, hs, hwait⟩ := (Option.any_eq_true _ _).1 hrun
  obtain ⟨hcurr, hrecv, hsend⟩ := of_decide_eq_true hwait
  exact ⟨s, by decide, hs, hcurr, hrecv, hsend, (processTable_ok _ _ _ (by decide) hs).1⟩

/-! ### No missed rendezvous -/

/-- A process waits to send to one that waits to receive. -/
def Missed (s : Grass M) (p q : ℤ) : Prop :=
  s.kernel.view p = .waitSend q ∧ s.kernel.view q = .waitRecv

/-- Each side of a rendezvous looks at the other one before it waits. -/
theorem Change.not_missed (h : ∀ p q, ¬ s.Missed p q) (hc : Change s s') (p q : ℤ) :
    ¬ s'.Missed p q := by
  rintro ⟨hp, hq⟩
  cases hc with
  | managed hv =>
      have hp' : s.kernel.view p = .waitSend q := by
        rcases hv p with hv | hv | hv | hv
        · exact hv.symm.trans hp
        all_goals simp [hp] at hv
      have hq' : s.kernel.view q = .waitRecv := by
        rcases hv q with hv | hv | hv | hv
        · exact hv.symm.trans hq
        all_goals simp [hq] at hv
      exact h p q ⟨hp', hq'⟩
  | handled k₀ hv hh =>
      generalize s'.kernel.view = v', s'.kernel.mem = m' at hp hq hh
      cases hh with
      | sendFail =>
          rw [hv] at hp hq
          exact h p q ⟨hp, hq⟩
      | sendBlock _ _ hne =>
          by_cases hpc : p = s.kernel.currPid
          · -- the receiver was not waiting when the process looked
            rw [hpc, update_self, PView.waitSend.injEq] at hp
            by_cases hqc : q = s.kernel.currPid
            · simp [hqc] at hq
            · rw [update_of_ne hqc, ← hp] at hq
              exact hne hq
          · rw [update_of_ne hpc, hv] at hp
            by_cases hqc : q = s.kernel.currPid
            · simp [hqc] at hq
            · rw [update_of_ne hqc, hv] at hq
              exact h p q ⟨hp, hq⟩
      | recvBlock _ hnone =>
          by_cases hpc : p = s.kernel.currPid
          · simp [hpc] at hp
          · rw [update_of_ne hpc] at hp
            by_cases hqc : q = s.kernel.currPid
            · -- no process was waiting to send to this one
              exact hnone p (hqc ▸ hp)
            · rw [update_of_ne hqc, hv] at hq
              exact h p q ⟨hv ▸ hp, hq⟩
      | sendDeliver | recvDeliver =>
          exact h p q ⟨hv ▸ of_update_run hp (by simp), hv ▸ of_update_run hq (by simp)⟩

/-- **No missed rendezvous.**  As long as the pids do not wrap, no process waits to send to a
process that waits to receive. -/
theorem rendezvous_not_missed (mem : ℤ → Syscall M) (registers : Fin 29 → UInt32)
    (es : List (Entry M)) (hallocs : 1 + allocs es < 2 ^ 31)
    (hrun : (boot mem registers).run es = some s) (i j : Fin 8)
    (hi : (s.kernel.procSet i).status = .waitToSend)
    (hij : (s.kernel.procSet i).receiverPid = (s.kernel.procSet j).pid) :
    (s.kernel.procSet j).status ≠ .waitToRecv := by
  intro hj
  have hboot : ∀ p q, ¬ (boot mem registers).Missed p q := by
    rintro p q ⟨hp, -⟩
    change (Kernel.boot mem registers).view p = .waitSend q at hp
    have hlive : (Kernel.boot mem registers).view p ≠ .dead := by simp [hp]
    obtain ⟨i, -, -, hvi⟩ := (Kernel.boot_atUser mem registers).exists_slot hlive
    rw [hp, Process.view] at hvi
    by_cases h0 : i = 0
    · simp [Kernel.boot, h0] at hvi
    · simp [Kernel.boot, h0] at hvi
  obtain ⟨hok, hnot⟩ := run_induction (P := fun s => ∀ p q, ¬ s.Missed p q)
    (fun _ _ _ h _ hc => hc.not_missed h) es _ s (boot_ok mem registers) hallocs hboot hrun
  have hipos := hok.kernel.pos i (by simp [hi])
  have hjpos := hok.kernel.pos j (by simp [hj])
  refine hnot (s.kernel.procSet i).pid (s.kernel.procSet j).pid ⟨?_, ?_⟩
  · rw [hok.kernel.view_pid hipos.ne', Process.view, hi, ← hij]
  · rw [hok.kernel.view_pid hjpos.ne', Process.view, hj]

/-- The sender waits, and its receiver does not. -/
theorem rendezvous_not_missed_sendToReady :
    ∃ s : Grass Unit, (boot (fun _ => ⟨.unused, ⟨0, 0, ()⟩, 0⟩) fun _ => 0).run sendToReady =
      some s ∧
      (s.kernel.procSet 1).status = .waitToSend ∧
      (s.kernel.procSet 1).receiverPid = (s.kernel.procSet 2).pid ∧
      (s.kernel.procSet 2).status ≠ .waitToRecv := by
  have hrun : ((boot (fun _ => ⟨.unused, ⟨0, 0, ()⟩, 0⟩) fun _ => 0).run sendToReady).any (fun s =>
      (s.kernel.procSet 1).status = .waitToSend ∧
        (s.kernel.procSet 1).receiverPid = (s.kernel.procSet 2).pid) = true := by decide +kernel
  obtain ⟨s, hs, hwait⟩ := (Option.any_eq_true _ _).1 hrun
  obtain ⟨hsend, hpid⟩ := of_decide_eq_true hwait
  exact ⟨s, hs, hsend, hpid, rendezvous_not_missed _ _ _ (by decide) hs 1 2 hsend hpid⟩

/-! ### Ctrl+c -/

/-- **Where a process continues after a ctrl+c**: where it was interrupted, as the kernel restores
the program counter that it saved before it looked at the terminal.  So the process is at the exit
stub only if it had been there already. -/
theorem resumed_at_exit_iff (s : Grass M) (id : Kernel.IntrId) (sc : Syscall M) (mepc : UInt32)
    (registers : Fin 29 → UInt32) (huser : s.kernel.currPid ≥ GPID_USER_START) :
    ∃ s', s.step (.trap id true sc mepc registers) = some s' ∧
      s'.kernel.currPid = s.kernel.currPid ∧
      (s'.kernel.mepc = 0x800500C ↔ mepc = 0x800500C) := by
  obtain ⟨k', hentry, hcurr, hmepc⟩ :=
    Kernel.kernelEntry_ctrlC (s.kernel.userRuns sc mepc registers) id huser
  refine ⟨{ s with kernel := k' }, ?_, hcurr, ?_⟩
  · rw [step, Kernel.trap, hentry]
  · rw [hmepc]
    rfl

/-- `GPID_PROCESS` creates the other system processes and a user application, and waits for a
message. -/
def startUser : List (Entry Unit) :=
  [.procAlloc, .procAlloc, .procAlloc, .procAlloc, .procSetReady 5,
    .trap .soft false ⟨.recv, ⟨0, 0, ()⟩, 0⟩ APPS_ENTRY fun _ => 0]

/-- The user application has reached the exit stub when ctrl+c is pressed. -/
theorem resumed_at_exit_iff_startUser :
    ∃ s s' : Grass Unit,
      (boot (fun _ => ⟨.unused, ⟨0, 0, ()⟩, 0⟩) fun _ => 0).run startUser = some s ∧
      s.kernel.currPid ≥ GPID_USER_START ∧
      s.step (.trap .timer true ⟨.unused, ⟨0, 0, ()⟩, 0⟩ 0x800500C fun _ => 0) = some s' ∧
      s'.kernel.currPid = s.kernel.currPid ∧ s'.kernel.mepc = 0x800500C := by
  have hrun : ((boot (fun _ => ⟨.unused, ⟨0, 0, ()⟩, 0⟩) fun _ => 0).run startUser).any (fun s =>
      s.kernel.currPid ≥ GPID_USER_START) = true := by decide +kernel
  obtain ⟨s, hs, huser⟩ := (Option.any_eq_true _ _).1 hrun
  obtain ⟨s', hstep, hcurr, hiff⟩ := resumed_at_exit_iff s .timer ⟨.unused, ⟨0, 0, ()⟩, 0⟩ 0x800500C
    (fun _ => 0) (of_decide_eq_true huser)
  exact ⟨s, s', hs, of_decide_eq_true huser, hstep, hcurr, hiff.2 rfl⟩

/-- A user application that is interrupted elsewhere goes on with its own program. -/
theorem ctrlC_ignored :
    ∃ s s' : Grass Unit,
      (boot (fun _ => ⟨.unused, ⟨0, 0, ()⟩, 0⟩) fun _ => 0).run startUser = some s ∧
      s.kernel.currPid ≥ GPID_USER_START ∧
      s.step (.trap .timer true ⟨.unused, ⟨0, 0, ()⟩, 0⟩ 0x8005100 fun _ => 0) = some s' ∧
      s'.kernel.currPid = s.kernel.currPid ∧ s'.kernel.mepc = 0x8005100 := by
  have hrun : ((boot (fun _ => ⟨.unused, ⟨0, 0, ()⟩, 0⟩) fun _ => 0).run startUser).any (fun s =>
      s.kernel.currPid ≥ GPID_USER_START ∧
        (s.step (.trap .timer true ⟨.unused, ⟨0, 0, ()⟩, 0⟩ 0x8005100 fun _ => 0)).any (fun s' =>
          s'.kernel.currPid = s.kernel.currPid ∧ s'.kernel.mepc = 0x8005100) = true) = true := by
    decide +kernel
  obtain ⟨s, hs, h⟩ := (Option.any_eq_true _ _).1 hrun
  obtain ⟨huser, hnext⟩ := of_decide_eq_true h
  obtain ⟨s', hs', h'⟩ := (Option.any_eq_true _ _).1 hnext
  exact ⟨s, s', hs, huser, hs', of_decide_eq_true h'⟩

end Grass

end Egos
