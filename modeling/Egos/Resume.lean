/-
**A resumed process continues where it stopped.**

The processes run in turns on one machine: each writes to its own pages and uses the registers,
until it traps.  `GPID_PROCESS` creates and frees processes in between, and loads their
pages.  Beside the machine, it is noted what the loader has stored in each frame, and how each
process left the machine when it trapped last.  When a trap returns, the process that goes on finds
all that again, but for the fields of its `struct syscall` that are the answer of the kernel.

Main definitions:

* `Egos.System`, `Egos.System.step`, `Egos.System.run` — the machine and its users;
* `Egos.System.Returned` — what the process that goes on finds.

Main results:

* `Egos.System.trap_returns` — **a process goes on where it stopped.**
-/

import Egos.Machine
import Egos.Traps

set_option autoImplicit false

namespace Egos

open Function (update update_of_ne update_self)
open Machine (Answered Effect)

/-- How a process left the machine when it trapped. -/
structure Stop where
  id : Kernel.IntrId
  mepc : UInt32
  registers : Fin 29 → UInt32
  mem : ℕ → Page

/-- The machine, with what is known of its past. -/
structure System where
  machine : Machine
  /-- What `mmu_alloc` returned last. -/
  fresh : Option (Fin 256 × ℕ)
  /-- What was loaded into each frame. -/
  image : Fin 256 → Page
  /-- The last trap of each process. -/
  stop : ℤ → Option Stop

/-- What happens between two traps, and a trap. -/
inductive System.Event
  /-- The current process writes to the page of one of its frames. -/
  | write (i : Fin 256) (f : Page → Page)
  | trap (id : Kernel.IntrId) (mepc : UInt32) (registers : Fin 29 → UInt32)
  /-- `GPID_PROCESS` loads a process. -/
  | mmuAlloc
  | load (f : Page → Page)
  | softTlbMap (pid : ℤ) (pageNo : ℕ) (i : Fin 256)
  /-- `GPID_PROCESS` manages processes. -/
  | procAlloc
  | procSetReady (pid : ℤ)
  | procFree (pid : ℤ)

instance (s : Paging) (f : Fin 256) (a : ℕ) : Decidable (s.FrameAt f a) :=
  inferInstanceAs (Decidable
    (if s.platform = .arty then ∃ i : Fin 28, s.cache.tag i = some f ∧ a = Paging.pagesStart + i
    else a = Paging.pagesStart + f))

/-- The registers as the current process left them. -/
def Machine.setRegisters (m : Machine) (mepc : UInt32) (registers : Fin 29 → UInt32) : Machine :=
  { m with mepc := mepc, registers := registers }

namespace System

/-- The current process. -/
def currPid (s : System) : ℤ := s.machine.tab.currPid

/-- **One event.**  `GPID_PROCESS` loads the pages of the process that it has allocated, and sets it
ready afterwards; a store of the loader goes to a frame that is still at the address that it uses;
and `GPID_PROCESS` does not free itself. -/
def step (s : System) : Event → Option System
  | .write i f =>
      if s.machine.mmu.Owned i s.machine.mmu.currVmPid then
        some { s with
          machine := { s.machine with
            mmu := { s.machine.mmu with
              toPaging := s.machine.mmu.toPaging.setPage (s.machine.mmu.table i).pageNo
                (f (s.machine.mmu.mem (s.machine.mmu.table i).pageNo)) } } }
      else none
  | .trap id mepc registers =>
      match (s.machine.setRegisters mepc registers).kernelEntry id false with
      | .ok m =>
          some { s with
            machine := m
            stop := update s.stop s.currPid
              (some ⟨id, mepc, registers, s.machine.mmu.mem⟩) }
      | .error _ => none
  | .mmuAlloc =>
      match s.machine.mmu.mmuAlloc with
      | .ok (i, a, m) =>
          if s.currPid = GPID_PROCESS then
            some { s with
              machine := { s.machine with mmu := m }
              fresh := some (i, a)
              image := update s.image i (m.mem a) }
          else none
      | .error _ => none
  | .load f =>
      match s.fresh with
      | some (i, a) =>
          if s.currPid = GPID_PROCESS ∧ s.machine.mmu.FrameAt i a ∧
              (s.machine.mmu.table i).use = true ∧ ((s.machine.mmu.table i).pid = 0 ∨
                s.machine.tab.view (s.machine.mmu.table i).pid = .loading) then
            some { s with
              machine := { s.machine with
                mmu := { s.machine.mmu with
                  toPaging := s.machine.mmu.toPaging.setPage a (f (s.machine.mmu.mem a)) } }
              image := update s.image i (f (s.image i)) }
          else none
      | none => none
  | .softTlbMap pid pageNo i =>
      if s.currPid = GPID_PROCESS ∧ s.machine.tab.view pid = .loading ∧ s.machine.mmu.Owned i 0 ∧
          Mmu.UserPage pageNo ∧
          ∀ j, s.machine.mmu.Owned j pid → (s.machine.mmu.table j).pageNo ≠ pageNo then
        some { s with
          machine := { s.machine with mmu := s.machine.mmu.softTlbMap pid pageNo i } }
      else none
  | .procAlloc =>
      match s.machine.tab.procAlloc with
      | .ok (_, k) =>
          if s.currPid = GPID_PROCESS then some { s with machine := s.machine.update k } else none
      | .error _ => none
  | .procSetReady pid =>
      if s.currPid = GPID_PROCESS ∧ s.machine.tab.view pid = .loading ∧
          ∃ i, s.machine.mmu.ScFrame pid i then
        some { s with machine := s.machine.update (s.machine.tab.procSetReady pid) }
      else none
  | .procFree pid =>
      if s.currPid = GPID_PROCESS ∧ pid ≠ GPID_PROCESS then
        some { s with machine := s.machine.procFree pid }
      else none

/-- A run. -/
def run (s : System) (es : List Event) : Option System := es.foldlM step s

/-- The variables of the kernel at the start. -/
def bootTab (registers : Fin 29 → UInt32) : Kernel Unit :=
  Kernel.boot (fun _ => ⟨.unused, ⟨0, 0, ()⟩, 0⟩) registers

/-- `main` of `grass.c` has loaded the first process, and jumps to its entry. -/
def boot (sp : Spaces) (registers : Fin 29 → UInt32) : System :=
  { machine :=
      { procSet := (bootTab registers).procSet
        procCurrIdx := (bootTab registers).procCurrIdx
        procNprocs := (bootTab registers).procNprocs
        mmu := sp.mmu.softTlbSwitch GPID_PROCESS
        mepc := (bootTab registers).mepc
        registers := (bootTab registers).registers }
    fresh := none
    image := sp.own
    stop := fun _ => none }

/-- The processes that a run creates. -/
def allocs (es : List Event) : ℕ := es.countP fun e => match e with
  | .procAlloc => true
  | _ => false

/-- The page of a process since its trap. -/
def Unchanged (st : Stop) (pid : ℤ) (pageNo : ℕ) (p : Page) : Prop :=
  if pageNo = scPageNo then Answered pid (st.mem pageNo) st.id p else p = st.mem pageNo

/-- **What the process that goes on finds** when a trap returns. -/
structure Returned (s s' : System) : Prop where
  /-- A new process starts at the entry point, with the pages that were loaded. -/
  ready : (s.machine.procSet s'.machine.procCurrIdx).status = .ready →
    s'.machine.mepc = APPS_ENTRY ∧ s'.machine.registers 8 = APPS_ARG ∧
      s'.machine.registers 9 = APPS_ARG + 4 ∧
      ∀ i, s'.machine.mmu.Owned i s'.currPid →
        s'.machine.mmu.mem (s'.machine.mmu.table i).pageNo = s'.image i
  /-- Any other process goes on where it stopped. -/
  started : (s.machine.procSet s'.machine.procCurrIdx).status ≠ .ready →
    ∃ st, s'.stop s'.currPid = some st ∧ s'.machine.mepc = st.mepc ∧
      s'.machine.registers = st.registers ∧
      ∀ i, s'.machine.mmu.Owned i s'.currPid →
        Unchanged st s'.currPid (s'.machine.mmu.table i).pageNo
          (s'.machine.mmu.mem (s'.machine.mmu.table i).pageNo)
  /-- Its address space is switched in. -/
  vm : s'.machine.mmu.currVmPid = s'.currPid

end System

/-! ### How a trap changes the states of the processes -/

namespace Kernel

variable {M : Type} {k k' : Kernel M}

/-- A process that a system call changes is loaded and alive, before and after. -/
theorem Handled.view_cases {p : ℤ} {v : ℤ → PView} {mem : ℤ → Syscall M} (h : Handled k p v mem)
    (hp : k.view p = .run) (q : ℤ) :
    v q = k.view q ∨
      (k.view q ≠ .dead ∧ k.view q ≠ .loading ∧ v q ≠ .dead ∧ v q ≠ .loading) := by
  -- one process changes, and its state before and after is known
  have hupdate : ∀ (r : ℤ) (x : PView), k.view r ≠ .dead → k.view r ≠ .loading → x ≠ .dead →
      x ≠ .loading → update k.view r x q = k.view q ∨
        (k.view q ≠ .dead ∧ k.view q ≠ .loading ∧ update k.view r x q ≠ .dead ∧
          update k.view r x q ≠ .loading) := by
    intro r x h₁ h₂ h₃ h₄
    by_cases hq : q = r
    · rw [hq, update_self]
      exact Or.inr ⟨h₁, h₂, h₃, h₄⟩
    · rw [update_of_ne hq]
      exact Or.inl rfl
  have hp₁ : k.view p ≠ .dead := by rw [hp]; simp
  have hp₂ : k.view p ≠ .loading := by rw [hp]; simp
  cases h with
  | sendFail => exact Or.inl rfl
  | sendBlock => exact hupdate p _ hp₁ hp₂ (by simp) (by simp)
  | sendDeliver _ hv => exact hupdate _ _ (by rw [hv]; simp) (by rw [hv]; simp) (by simp) (by simp)
  | recvBlock => exact hupdate p _ hp₁ hp₂ (by simp) (by simp)
  | recvDeliver s _ hs =>
    exact hupdate s _ (by rw [hs]; simp) (by rw [hs]; simp) (by simp) (by simp)

/-- A process waits for a message since it asked for one. -/
theorem Handled.waitRecv {p q : ℤ} {v : ℤ → PView} {mem : ℤ → Syscall M} (h : Handled k p v mem)
    (hq : v q = .waitRecv) : k.view q = .waitRecv ∨ (q = p ∧ (k.mem p).type = .recv) := by
  cases h with
  | sendFail => exact Or.inl hq
  | sendBlock =>
      by_cases hqp : q = p
      · rw [hqp, update_self] at hq
        exact absurd hq (by simp)
      · rw [update_of_ne hqp] at hq
        exact Or.inl hq
  | sendDeliver => exact Or.inl (of_update_run hq (by simp))
  | recvBlock hty =>
      by_cases hqp : q = p
      · exact Or.inr ⟨hqp, hty⟩
      · rw [update_of_ne hqp] at hq
        exact Or.inl hq
  | recvDeliver => exact Or.inl (of_update_run hq (by simp))

/-- **The states of the processes after a trap.** -/
theorem kernelEntry_views {id : IntrId} (hk : k.AtUser) (h : k.kernelEntry id false = .ok k') :
    k'.AtUser ∧ k'.procNprocs = k.procNprocs ∧ (∀ i, (k'.procSet i).pid = (k.procSet i).pid) ∧
      (∀ q, k'.view q = k.view q ∨ (k.view q ≠ .dead ∧ k.view q ≠ .loading ∧
        k'.view q ≠ .dead ∧ k'.view q ≠ .loading)) ∧
      ∀ q, k'.view q = .waitRecv →
        k.view q = .waitRecv ∨ (id = .soft ∧ q = k.currPid ∧ (k.mem q).type = .recv) := by
  cases id with
  | timer =>
      obtain ⟨hk', hsame⟩ := kernelEntry_timer hk h
      refine ⟨hk', hsame.nprocs, hsame.pid, ?_, ?_⟩
      · intro q
        rw [hsame.view]
        exact Or.inl rfl
      · intro q hq
        rw [hsame.view] at hq
        exact Or.inl hq
  | soft =>
      obtain ⟨hk', hn, hp, hcase⟩ := kernelEntry_soft hk h
      rw [if_neg (by simp)] at hcase
      refine ⟨hk', hn, hp, hcase.view_cases hk.view_currPid, ?_⟩
      intro q hq
      rcases hcase.waitRecv hq with hold | ⟨rfl, hty⟩
      · exact Or.inl hold
      · exact Or.inr ⟨rfl, rfl, hty⟩

end Kernel

/-- A second message replaces the first one. -/
theorem Page.setScMsg_setScMsg (p : Page) (a b : MsgBytes) :
    (p.setScMsg a).setScMsg b = p.setScMsg b := by
  funext j k
  unfold Page.setScMsg
  by_cases h : 0x404 ≤ 512 * j.val + k.val ∧ 512 * j.val + k.val < 0x80c
  · rw [dif_pos h, dif_pos h]
  · rw [dif_neg h, dif_neg h, dif_neg h]

/-- A message for a process that waits for one. -/
theorem Machine.Answered.deliver {pid : ℤ} {old p : Page} (h : Answered pid old .soft p)
    (hty : syscallType old.scType = .recv) (msg : MsgBytes) :
    Answered pid old .soft (p.setScMsg msg) := by
  cases h with
  | send hsend => exact absurd (hsend.symm.trans hty) (by simp)
  | sendFail hsend => exact absurd (hsend.symm.trans hty) (by simp)
  | recv _ => exact .delivered hty msg
  | delivered _ msg₀ =>
      rw [Page.setScMsg_setScMsg]
      exact .delivered hty msg

namespace System

variable {s s' : System} {cur : Fin 256 → Page}

/-! ### The invariant -/

/-- **What is true outside the kernel**, where the frames hold `cur`. -/
structure Ok (s : System) (cur : Fin 256 → Page) : Prop where
  priv : s.machine.mmu.Private cur
  atUser : (s.machine.abs cur).AtUser
  mapped : s.machine.Mapped
  /-- A process that has not run has the pages that were loaded. -/
  image : ∀ i q, s.machine.mmu.Owned i q → q ≠ s.currPid → s.stop q = none → cur i = s.image i
  /-- A process that has trapped has the pages that it left. -/
  stopped : ∀ i q st, s.machine.mmu.Owned i q → q ≠ s.currPid → s.stop q = some st →
    Unchanged st q (s.machine.mmu.table i).pageNo (cur i)
  /-- Its slot has the context that it left. -/
  context : ∀ j, j ≠ s.machine.procCurrIdx → (s.machine.procSet j).status.started = true →
    ∃ st, s.stop (s.machine.procSet j).pid = some st ∧ (s.machine.procSet j).mepc = st.mepc ∧
      (s.machine.procSet j).savedRegister = st.registers
  waiting : ∀ q, s.machine.tab.view q = .waitRecv → ∃ st, s.stop q = some st ∧ st.id = .soft ∧
    syscallType (st.mem scPageNo).scType = .recv
  born : ∀ q st, s.stop q = some st → 0 < q ∧ q ≤ s.machine.procNprocs
  loading : ∀ q, s.machine.tab.view q = .loading → s.stop q = none
  ready : ∀ j, (s.machine.procSet j).status = .ready → s.stop (s.machine.procSet j).pid = none

theorem Ok.currPid_ne (h : s.Ok cur) : s.currPid ≠ 0 := h.atUser.currPid_pos.ne'

theorem Ok.vm (h : s.Ok cur) : s.machine.mmu.currVmPid = s.currPid := h.atUser.vm

theorem Ok.view_currPid (h : s.Ok cur) : s.machine.tab.view s.currPid = .run :=
  h.atUser.view_currPid

/-- A process whose state is not `run` is not the current one. -/
theorem Ok.ne_currPid (h : s.Ok cur) {q : ℤ} (hq : s.machine.tab.view q ≠ .run) :
    q ≠ s.currPid := by
  rintro rfl
  exact hq h.view_currPid

theorem Ok.stop_zero (h : s.Ok cur) : s.stop 0 = none := by
  cases hs : s.stop 0 with
  | none => rfl
  | some st => exact absurd (h.born 0 st hs).1 (lt_irrefl 0)

/-! ### A trap -/

section Trap

variable {id : Kernel.IntrId} {mepc : UInt32} {registers : Fin 29 → UInt32} {cur' : Fin 256 → Page}

/-- The record of the traps, with one more. -/
def stopAt (s : System) (id : Kernel.IntrId) (mepc : UInt32) (registers : Fin 29 → UInt32) :
    ℤ → Option Stop :=
  update s.stop s.currPid (some ⟨id, mepc, registers, s.machine.mmu.mem⟩)

theorem stopAt_of_ne {q : ℤ} (hq : q ≠ s.currPid) : s.stopAt id mepc registers q = s.stop q :=
  update_of_ne hq _ _

theorem stopAt_currPid :
    s.stopAt id mepc registers s.currPid = some ⟨id, mepc, registers, s.machine.mmu.mem⟩ :=
  update_self _ _ _

/-- The pages of the processes that have trapped. -/
theorem Ok.unchanged (h : s.Ok cur) (heffect : Effect s.machine id cur cur') {i : Fin 256} {q : ℤ}
    {st : Stop} (hi : s.machine.mmu.Owned i q) (hst : s.stopAt id mepc registers q = some st) :
    Unchanged st q (s.machine.mmu.table i).pageNo (cur' i) := by
  by_cases hq : q = s.currPid
  · subst hq
    rw [stopAt_currPid] at hst
    obtain rfl := Option.some.inj hst
    have hcurr := heffect.curr i hi
    rw [← h.vm] at hi
    rw [← h.priv.live i hi] at hcurr
    exact hcurr
  · rw [stopAt_of_ne hq] at hst
    have hold := h.stopped i q st hi hq hst
    rcases heffect.other i q hi hq with hsame | ⟨hframe, hview, msg, hmsg⟩
    · rw [hsame]
      exact hold
    · obtain ⟨st', hst', hid, hty⟩ := h.waiting q hview
      obtain rfl := Option.some.inj (hst.symm.trans hst')
      rw [hmsg]
      unfold Unchanged at hold ⊢
      rw [hframe.2, if_pos rfl, hid] at hold ⊢
      exact hold.deliver hty msg

/-- The pages of the processes that have not run. -/
theorem Ok.image_trap (h : s.Ok cur) (heffect : Effect s.machine id cur cur') {i : Fin 256} {q : ℤ}
    (hi : s.machine.mmu.Owned i q) (hst : s.stopAt id mepc registers q = none) :
    cur' i = s.image i := by
  have hq : q ≠ s.currPid := by
    rintro rfl
    rw [stopAt_currPid] at hst
    exact absurd hst (by simp)
  rw [stopAt_of_ne hq] at hst
  rcases heffect.other i q hi hq with hsame | ⟨-, hview, -⟩
  · rw [hsame]
    exact h.image i q hi hq hst
  · obtain ⟨st, hst', -⟩ := h.waiting q hview
    exact absurd (hst.symm.trans hst') (by simp)

/-- The contexts of the processes that have run, when that of the current one is saved. -/
theorem Ok.context_save (h : s.Ok cur) (id : Kernel.IntrId) {k : Kernel (Fin 1024 → UInt8)}
    (hk : k = (s.machine.setRegisters mepc registers).abs cur)
    {j : Fin 8} (hj : (k.save.procSet j).status.started = true) :
    ∃ st, s.stopAt id mepc registers (s.machine.procSet j).pid = some st ∧
      (k.save.procSet j).mepc = st.mepc ∧ (k.save.procSet j).savedRegister = st.registers := by
  subst hk
  by_cases hc : j = s.machine.procCurrIdx
  · subst hc
    refine ⟨_, stopAt_currPid, ?_, ?_⟩
    · exact congrArg Process.mepc (Kernel.setProc_self _ s.machine.procCurrIdx _)
    · exact congrArg Process.savedRegister (Kernel.setProc_self _ s.machine.procCurrIdx _)
  · have hsame : ∀ k : Kernel (Fin 1024 → UInt8), j ≠ k.procCurrIdx →
        k.save.procSet j = k.procSet j := fun k hne => Kernel.setProc_of_ne k hne _
    rw [hsame _ hc] at hj ⊢
    obtain ⟨st, hst, hmepc, hsaved⟩ := h.context j hc hj
    have hpid : (s.machine.procSet j).pid ≠ s.currPid := by
      intro hpid
      exact hc (h.atUser.inj j _ hpid (by
        change (s.machine.procSet j).pid ≠ 0
        rw [hpid]
        exact h.currPid_ne))
    refine ⟨st, ?_, hmepc, hsaved⟩
    rw [stopAt_of_ne hpid]
    exact hst

/-- A new process is not the current one. -/
theorem Ok.ready_ne (h : s.Ok cur) {j : Fin 8} (hj : (s.machine.procSet j).status = .ready) :
    (s.machine.procSet j).pid ≠ s.currPid :=
  h.atUser.ready_ne hj

/-- The type of the system call of the current process. -/
theorem Ok.syscall_type (h : s.Ok cur) :
    (s.machine.mmu.syscalls cur s.currPid).type =
      syscallType (s.machine.mmu.mem scPageNo).scType := by
  have hrun := h.view_currPid
  obtain ⟨c, hc⟩ := h.mapped s.currPid (by rw [hrun]; simp) (by rw [hrun]; simp)
  have hlive := h.priv.live c (h.vm ▸ hc.1)
  rw [hc.2] at hlive
  rw [h.priv.syscalls_eq h.currPid_ne hc, hlive]
  rfl

/-- Saving the context does not change the status. -/
theorem status_save {M : Type} (k : Kernel M) (j : Fin 8) :
    (k.save.procSet j).status = (k.procSet j).status := by
  unfold Kernel.save
  by_cases hj : j = k.procCurrIdx
  · rw [hj, Kernel.setProc_self]
  · rw [Kernel.setProc_of_ne k hj]

/-- **A trap.** -/
theorem Ok.trap (h : s.Ok cur) (hn : s.machine.procNprocs < 2 ^ 31)
    (hs : s.step (.trap id mepc registers) = some s') :
    (∃ cur', s'.Ok cur') ∧ Returned s s' ∧ s'.machine.procNprocs = s.machine.procNprocs := by
  unfold step at hs
  dsimp only at hs
  cases htrap : (s.machine.setRegisters mepc registers).kernelEntry id false with
  | error e =>
      rw [htrap] at hs
      exact absurd hs (by simp)
  | ok m' =>
      rw [htrap] at hs
      obtain rfl := Option.some.inj hs
      have hint : s.currPid < 2 ^ 31 := by
        have hle := (h.atUser.le s.machine.procCurrIdx).2
        change s.currPid ≤ (s.machine.procNprocs : ℤ) at hle
        omega
      have hk₀ : ((s.machine.setRegisters mepc registers).abs cur).AtUser :=
        ⟨h.atUser.toTableOk.congr _ rfl rfl, h.atUser.running, h.atUser.vm⟩
      obtain ⟨cur', hsteps, hentry, heffect⟩ :=
        Machine.kernelEntry_spec (m := s.machine.setRegisters mepc registers) h.priv hk₀ h.mapped
          hint htrap
      have heffect' : Effect s.machine id cur cur' := ⟨heffect.curr, heffect.other⟩
      obtain ⟨hk', hnprocs, hpids, hviews, hwait⟩ := Kernel.kernelEntry_views hk₀ hentry
      obtain ⟨hres, hmepc, hregs⟩ := Kernel.kernelEntry_resumes hk₀ hentry
      generalize hk : (s.machine.setRegisters mepc registers).abs cur = k
        at hres hentry hpids hviews hwait hnprocs
      have hstatus : ∀ j, (k.save.procSet j).status = (s.machine.procSet j).status := by
        intro j
        rw [status_save, ← hk]
        rfl
      have hpid : ∀ j, (m'.procSet j).pid = (s.machine.procSet j).pid := by
        intro j
        rw [← hk] at hpids
        exact hpids j
      have hview : ∀ q, k.view q = s.machine.tab.view q := by
        intro q
        rw [← hk]
        rfl
      have hown : ∀ i q, m'.mmu.Owned i q ↔ s.machine.mmu.Owned i q :=
        Mmu.owned_congr hsteps.table
      have hunchanged : ∀ i q st, m'.mmu.Owned i q → s.stopAt id mepc registers q = some st →
          Unchanged st q (m'.mmu.table i).pageNo (cur' i) := by
        intro i q st hi hst
        rw [hsteps.table]
        exact h.unchanged heffect' ((hown i q).1 hi) hst
      have himage : ∀ i q, m'.mmu.Owned i q → s.stopAt id mepc registers q = none →
          cur' i = s.image i := by
        intro i q hi hst
        exact h.image_trap heffect' ((hown i q).1 hi) hst
      have hlive : ∀ i, m'.mmu.Owned i m'.tab.currPid →
          m'.mmu.mem (m'.mmu.table i).pageNo = cur' i := by
        intro i hi
        have hvm : m'.mmu.currVmPid = m'.tab.currPid := hk'.vm
        rw [← hvm] at hi
        exact hsteps.priv.live i hi
      have hready : ∀ j, (s.machine.procSet j).status = .ready →
          s.stopAt id mepc registers (s.machine.procSet j).pid = none := by
        intro j hj
        rw [stopAt_of_ne (h.ready_ne hj)]
        exact h.ready j hj
      refine ⟨⟨cur', ⟨hsteps.priv, hk', ?_, ?_, ?_, ?_, ?_, ?_, ?_, ?_⟩⟩, ⟨?_, ?_, hk'.vm⟩, ?_⟩
      · intro q hdead hloading
        have halive : s.machine.tab.view q ≠ .dead ∧ s.machine.tab.view q ≠ .loading := by
          rw [← hview]
          rcases hviews q with hsame | ⟨h₁, h₂, -⟩
          · rw [← hsame]
            exact ⟨hdead, hloading⟩
          · exact ⟨h₁, h₂⟩
        obtain ⟨i, hi⟩ := h.mapped q halive.1 halive.2
        exact ⟨i, (Mmu.scFrame_congr hsteps.table q i).2 hi⟩
      · intro i q hi _ hst
        exact himage i q hi hst
      · intro i q st hi _ hst
        exact hunchanged i q st hi hst
      · intro j hj hstarted
        have hsame := hres.other j hj
        obtain ⟨st, hst, hm, hr⟩ := h.context_save id hk.symm (hsame.started.symm.trans hstarted)
        refine ⟨st, ?_, hsame.mepc.trans hm, hsame.savedRegister.trans hr⟩
        change s.stopAt id mepc registers (m'.procSet j).pid = _
        rw [hpid]
        exact hst
      · intro q hq
        change ∃ st, s.stopAt id mepc registers q = _ ∧ _
        rcases hwait q hq with hold | ⟨rfl, hcurr, hty⟩
        · rw [hview] at hold
          rw [stopAt_of_ne (h.ne_currPid (by rw [hold]; simp))]
          exact h.waiting q hold
        · rw [← hk] at hty hcurr
          obtain rfl : q = s.currPid := hcurr
          refine ⟨⟨.soft, mepc, registers, s.machine.mmu.mem⟩, stopAt_currPid, rfl, ?_⟩
          rw [← h.syscall_type]
          exact hty
      · intro q st hst
        change s.stopAt id mepc registers q = _ at hst
        have hn' : m'.procNprocs = s.machine.procNprocs := by
          rw [← hk] at hnprocs
          exact hnprocs
        rw [hn']
        by_cases hq : q = s.currPid
        · subst hq
          exact ⟨h.atUser.currPid_pos, (h.atUser.le s.machine.procCurrIdx).2⟩
        · rw [stopAt_of_ne hq] at hst
          exact h.born q st hst
      · intro q hq
        have hold : s.machine.tab.view q = .loading := by
          rw [← hview]
          rcases hviews q with hsame | ⟨-, -, -, hnot⟩
          · exact hsame.symm.trans hq
          · exact absurd hq hnot
        change s.stopAt id mepc registers q = none
        rw [stopAt_of_ne (h.ne_currPid (by rw [hold]; simp))]
        exact h.loading q hold
      · intro j hj
        have hjc : j ≠ m'.procCurrIdx := by
          intro hjc
          have hrunning : (m'.procSet j).status = .running := (hk'.running j).2 hjc
          exact absurd (hrunning.symm.trans hj) (by decide)
        have hold := (hres.other j hjc).ready.1 hj
        rw [hstatus] at hold
        change s.stopAt id mepc registers (m'.procSet j).pid = none
        rw [hpid]
        exact hready j hold
      · intro hstart
        obtain ⟨h₁, h₂, h₃⟩ := hres.ready ((hstatus _).trans hstart)
        refine ⟨hmepc.trans h₁, ?_, ?_, ?_⟩
        · exact (congrFun hregs 8).trans h₂
        · exact (congrFun hregs 9).trans h₃
        · intro i hi
          refine (hlive i hi).trans (himage i _ hi ?_)
          change s.stopAt id mepc registers (m'.procSet m'.procCurrIdx).pid = none
          rw [hpid]
          exact hready _ hstart
      · intro hstart
        obtain ⟨hstarted, hsame⟩ := hres.started (fun hc => hstart ((hstatus _).symm.trans hc))
        obtain ⟨st, hst, hm, hr⟩ := h.context_save id hk.symm hstarted
        have hst' : s.stopAt id mepc registers m'.tab.currPid = some st := by
          change s.stopAt id mepc registers (m'.procSet m'.procCurrIdx).pid = _
          rw [hpid]
          exact hst
        refine ⟨st, hst', ?_, ?_, ?_⟩
        · exact (hmepc.trans hsame.mepc).trans hm
        · exact (hregs.trans hsame.savedRegister).trans hr
        · intro i hi
          change Unchanged st m'.tab.currPid (m'.mmu.table i).pageNo
            (m'.mmu.mem (m'.mmu.table i).pageNo)
          rw [hlive i hi]
          exact hunchanged i _ st hi hst'
      · rw [← hk] at hnprocs
        exact hnprocs

end Trap

/-! ### Writing and loading -/

theorem Ok.pos_of_alive (h : s.Ok cur) {q : ℤ} (hq : s.machine.tab.view q ≠ .dead) : q ≠ 0 := by
  obtain ⟨-, -, h0, -⟩ := h.atUser.exists_slot hq
  exact h0

/-- **The frames change**, and the processes stay as they are. -/
theorem Ok.frames (h : s.Ok cur) {m : Mmu} {cur' image : Fin 256 → Page} (hm : m.Private cur')
    (hcurr : m.currVmPid = s.machine.mmu.currVmPid)
    (hframe : ∀ q i, q ≠ 0 → s.machine.mmu.ScFrame q i → m.ScFrame q i)
    (himage : ∀ i q, m.Owned i q → q ≠ s.currPid → s.stop q = none → cur' i = image i)
    (hstopped : ∀ i q st, m.Owned i q → q ≠ s.currPid → s.stop q = some st →
      Unchanged st q (m.table i).pageNo (cur' i)) (fresh : Option (Fin 256 × ℕ)) :
    ({ s with machine := { s.machine with mmu := m }, fresh := fresh, image := image } : System).Ok
      cur' := by
  refine ⟨hm, ⟨h.atUser.toTableOk.congr _ rfl rfl, h.atUser.running, ?_⟩, ?_, himage, hstopped,
    h.context, h.waiting, h.born, h.loading, h.ready⟩
  · exact hcurr.trans h.vm
  · intro q hdead hloading
    obtain ⟨i, hi⟩ := h.mapped q hdead hloading
    exact ⟨i, hframe q i (h.pos_of_alive hdead) hi⟩

theorem Ok.write {i : Fin 256} {f : Page → Page} (h : s.Ok cur)
    (hs : s.step (.write i f) = some s') :
    (∃ cur', s'.Ok cur') ∧ s'.machine.procNprocs = s.machine.procNprocs := by
  unfold step at hs
  dsimp only at hs
  split at hs
  · rename_i hi
    obtain rfl := Option.some.inj hs
    have hne : ∀ j q, s.machine.mmu.Owned j q → q ≠ s.currPid → j ≠ i := by
      rintro j q hj hq rfl
      rw [h.vm] at hi
      exact hq (hj.2.symm.trans hi.2)
    refine ⟨⟨_, h.frames (h.priv.write hi _) rfl (fun _ _ _ hj => hj) ?_ ?_ s.fresh⟩, rfl⟩
    · intro j q hj hq hst
      rw [update_of_ne (hne j q hj hq)]
      exact h.image j q hj hq hst
    · intro j q st hj hq hst
      rw [update_of_ne (hne j q hj hq)]
      exact h.stopped j q st hj hq hst
  · exact absurd hs (by simp)

theorem Ok.mmuAlloc (h : s.Ok cur) (hs : s.step .mmuAlloc = some s') :
    (∃ cur', s'.Ok cur') ∧ s'.machine.procNprocs = s.machine.procNprocs := by
  unfold step at hs
  dsimp only at hs
  cases ha : s.machine.mmu.mmuAlloc with
  | error e =>
      rw [ha] at hs
      exact absurd hs (by simp)
  | ok r =>
      obtain ⟨i, a, m⟩ := r
      rw [ha] at hs
      dsimp only at hs
      split at hs
      · obtain rfl := Option.some.inj hs
        obtain ⟨huse, -, htable, hcurr⟩ := Mmu.mmuAlloc_eq ha
        obtain ⟨hm, -, hzero⟩ := h.priv.mmuAlloc ha
        have hother : ∀ j, j ≠ i → m.table j = s.machine.mmu.table j := by
          intro j hj
          rw [htable, update_of_ne hj]
        have hown : ∀ j q, j ≠ i → m.Owned j q → s.machine.mmu.Owned j q := by
          intro j q hj hown
          rwa [Mmu.Owned, hother j hj] at hown
        refine ⟨⟨_, h.frames hm hcurr ?_ ?_ ?_ _⟩, rfl⟩
        · intro q j _ hj
          have hji : j ≠ i := by
            rintro rfl
            exact absurd (hj.1.1.symm.trans huse) (by simp)
          rw [Mmu.ScFrame, Mmu.Owned, hother j hji]
          exact hj
        · intro j q hj hq hst
          by_cases hji : j = i
          · rw [hji, update_self, update_self]
          · rw [update_of_ne hji, update_of_ne hji]
            exact h.image j q (hown j q hji hj) hq hst
        · intro j q st hj hq hst
          have hji : j ≠ i := by
            rintro rfl
            -- no process has trapped that owns the new frame
            obtain rfl : q = 0 := hj.2.symm.trans hzero.2
            exact absurd (h.stop_zero.symm.trans hst) (by simp)
          rw [update_of_ne hji, hother j hji]
          exact h.stopped j q st (hown j q hji hj) hq hst
      · exact absurd hs (by simp)

theorem Ok.load {f : Page → Page} (h : s.Ok cur) (hs : s.step (.load f) = some s') :
    (∃ cur', s'.Ok cur') ∧ s'.machine.procNprocs = s.machine.procNprocs := by
  unfold step at hs
  dsimp only at hs
  cases hf : s.fresh with
  | none =>
      rw [hf] at hs
      exact absurd hs (by simp)
  | some r =>
      obtain ⟨i, a⟩ := r
      rw [hf] at hs
      dsimp only at hs
      split at hs
      · rename_i hc
        obtain ⟨-, hat, huse, hpid⟩ := hc
        obtain rfl := Option.some.inj hs
        -- the process that the frame is for has not run
        have hnone : s.stop (s.machine.mmu.table i).pid = none := by
          rcases hpid with h0 | hload
          · rw [h0]
            exact h.stop_zero
          · exact h.loading _ hload
        have hne : (s.machine.mmu.table i).pid ≠ s.currPid := by
          rcases hpid with h0 | hload
          · rw [h0]
            exact h.currPid_ne.symm
          · exact h.ne_currPid (by rw [hload]; simp)
        have hvm : (s.machine.mmu.table i).pid ≠ s.machine.mmu.currVmPid := by
          rw [h.vm]
          exact hne
        have hcontents : s.machine.mmu.mem a = cur i :=
          h.priv.ok.hasFrame_unique hat.hasFrame (h.priv.stored i huse hvm)
        obtain ⟨hm, -⟩ := h.priv.load hat hvm (f (s.machine.mmu.mem a))
        refine ⟨⟨_, h.frames hm rfl (fun _ _ _ hj => hj) ?_ ?_ _⟩, rfl⟩
        · intro j q hj hq hst
          by_cases hji : j = i
          · subst hji
            rw [update_self, update_self, hcontents,
              h.image j _ ⟨huse, rfl⟩ hne hnone]
          · rw [update_of_ne hji, update_of_ne hji]
            exact h.image j q hj hq hst
        · intro j q st hj hq hst
          have hji : j ≠ i := by
            rintro rfl
            have hpid : (s.machine.mmu.table j).pid = q := hj.2
            rw [hpid] at hnone
            exact absurd (hnone.symm.trans hst) (by simp)
          rw [update_of_ne hji]
          exact h.stopped j q st hj hq hst
      · exact absurd hs (by simp)

theorem Ok.softTlbMap {pid : ℤ} {pageNo : ℕ} {i : Fin 256} (h : s.Ok cur)
    (hs : s.step (.softTlbMap pid pageNo i) = some s') :
    (∃ cur', s'.Ok cur') ∧ s'.machine.procNprocs = s.machine.procNprocs := by
  unfold step at hs
  dsimp only at hs
  split at hs
  · rename_i hc
    obtain ⟨-, hload, hzero, hpage, hnew⟩ := hc
    obtain rfl := Option.some.inj hs
    have hnone := h.loading pid hload
    have hvm : pid ≠ s.machine.mmu.currVmPid := by
      rw [h.vm]
      exact h.ne_currPid (by rw [hload]; simp)
    have hself : (s.machine.mmu.softTlbMap pid pageNo i).table i =
        { s.machine.mmu.table i with pid := pid, pageNo := pageNo } := update_self _ _ _
    have hother : ∀ j, j ≠ i →
        (s.machine.mmu.softTlbMap pid pageNo i).table j = s.machine.mmu.table j :=
      fun j hj => update_of_ne hj _ _
    have hown : ∀ j q, j ≠ i → (s.machine.mmu.softTlbMap pid pageNo i).Owned j q →
        s.machine.mmu.Owned j q := by
      intro j q hj hown
      rwa [Mmu.Owned, hother j hj] at hown
    refine ⟨⟨_, h.frames (h.priv.softTlbMap hzero hvm hpage hnew) rfl ?_ ?_ ?_ s.fresh⟩, rfl⟩
    · intro q j hq hj
      have hji : j ≠ i := by
        rintro rfl
        exact hq (hj.1.2.symm.trans hzero.2)
      rw [Mmu.ScFrame, Mmu.Owned, hother j hji]
      exact hj
    · intro j q hj hq hst
      by_cases hji : j = i
      · rw [hji]
        exact h.image i 0 hzero h.currPid_ne.symm h.stop_zero
      · exact h.image j q (hown j q hji hj) hq hst
    · intro j q st hj hq hst
      have hji : j ≠ i := by
        rintro rfl
        have hpid : pid = q := by
          have := hj.2
          rwa [hself] at this
        rw [← hpid] at hst
        exact absurd (hnone.symm.trans hst) (by simp)
      rw [hother j hji]
      exact h.stopped j q st (hown j q hji hj) hq hst
  · exact absurd hs (by simp)

/-! ### Managing processes -/

theorem Ok.tab (h : s.Ok cur) : s.machine.tab.AtUser :=
  ⟨⟨h.atUser.inj, h.atUser.pos, h.atUser.le⟩, h.atUser.running, h.atUser.vm⟩

/-- **The processes change**, and the current one stays. -/
theorem Ok.processes (h : s.Ok cur) {m : Machine} (hm : m.mmu.Private cur) (hat : m.tab.AtUser)
    (hidx : m.procCurrIdx = s.machine.procCurrIdx) (hcurr : m.tab.currPid = s.currPid)
    (hnprocs : s.machine.procNprocs ≤ m.procNprocs) (hmapped : m.Mapped)
    (hframe : ∀ i q, m.mmu.Owned i q →
      s.machine.mmu.Owned i q ∧ (m.mmu.table i).pageNo = (s.machine.mmu.table i).pageNo)
    (hstarted : ∀ j, (m.procSet j).status.started = true → m.procSet j = s.machine.procSet j)
    (hwaiting : ∀ q, m.tab.view q = .waitRecv → s.machine.tab.view q = .waitRecv)
    (hloading : ∀ q, m.tab.view q = .loading → s.stop q = none)
    (hready : ∀ j, (m.procSet j).status = .ready → s.stop (m.procSet j).pid = none) :
    ({ s with machine := m } : System).Ok cur := by
  refine ⟨hm, ⟨⟨hat.inj, hat.pos, hat.le⟩, hat.running, hat.vm⟩, hmapped, ?_, ?_, ?_, ?_, ?_,
    hloading, hready⟩
  · intro i q hi hq hst
    change q ≠ m.tab.currPid at hq
    rw [hcurr] at hq
    exact h.image i q (hframe i q hi).1 hq hst
  · intro i q st hi hq hst
    change q ≠ m.tab.currPid at hq
    rw [hcurr] at hq
    obtain ⟨hi', hpage⟩ := hframe i q hi
    change Unchanged st q (m.mmu.table i).pageNo (cur i)
    rw [hpage]
    exact h.stopped i q st hi' hq hst
  · intro j hj hst
    change j ≠ m.procCurrIdx at hj
    change (m.procSet j).status.started = true at hst
    change ∃ st, s.stop (m.procSet j).pid = some st ∧ (m.procSet j).mepc = st.mepc ∧
      (m.procSet j).savedRegister = st.registers
    rw [hidx] at hj
    have hsame := hstarted j hst
    rw [hsame] at hst ⊢
    exact h.context j hj hst
  · intro q hq
    exact h.waiting q (hwaiting q hq)
  · intro q st hst
    obtain ⟨hpos, hle⟩ := h.born q st hst
    refine ⟨hpos, hle.trans ?_⟩
    exact_mod_cast hnprocs

theorem Ok.procAlloc (h : s.Ok cur) (hn : s.machine.procNprocs + 1 < 2 ^ 31)
    (hs : s.step .procAlloc = some s') :
    (∃ cur', s'.Ok cur') ∧ s'.machine.procNprocs = s.machine.procNprocs + 1 := by
  unfold step at hs
  dsimp only at hs
  cases ha : s.machine.tab.procAlloc with
  | error e =>
      rw [ha] at hs
      exact absurd hs (by simp)
  | ok r =>
      obtain ⟨pid, k⟩ := r
      rw [ha] at hs
      dsimp only at hs
      split at hs
      · obtain rfl := Option.some.inj hs
        obtain ⟨hk, hpid, hnprocs, hdead, hview, -, hcurr⟩ := Kernel.procAlloc_spec h.tab hn ha
        have hnone : s.stop pid = none := by
          cases hst : s.stop pid with
          | none => rfl
          | some st =>
              have hle := (h.born pid st hst).2
              change pid = (s.machine.procNprocs : ℤ) + 1 at hpid
              omega
        -- the slot that is allocated
        obtain ⟨i, hslot⟩ : ∃ i, k = { s.machine.tab.setProc i (fun p =>
            { p with pid := pid, status := .loading }) with
            procNprocs := s.machine.procNprocs + 1 } := by
          cases hi : s.machine.tab.findUnused with
          | none => simp [Kernel.procAlloc, hi] at ha
          | some i =>
              have heq := Kernel.procAlloc_eq hi hn
              rw [ha, Except.ok.injEq, Prod.mk.injEq] at heq
              obtain ⟨rfl, rfl⟩ := heq
              exact ⟨i, rfl⟩
        have hself : (k.procSet i).status = .loading := by
          rw [hslot]
          dsimp only
          rw [Kernel.setProc_self]
        have hother : ∀ j, j ≠ i → k.procSet j = s.machine.procSet j := by
          intro j hj
          rw [hslot]
          dsimp only
          rw [Kernel.setProc_of_ne s.machine.tab hj]
          rfl
        have hidx : k.procCurrIdx = s.machine.procCurrIdx := by
          rw [hslot]
          rfl
        have hview' : ∀ q, (s.machine.update k).tab.view q =
            update s.machine.tab.view pid .loading q := by
          intro q
          rw [← hview]
          rfl
        have hat : (s.machine.update k).tab.AtUser := by
          refine ⟨⟨hk.inj, hk.pos, hk.le⟩, hk.running, ?_⟩
          exact h.vm.trans hcurr.symm
        refine ⟨⟨cur, h.processes h.priv hat hidx hcurr ?_ ?_
          (fun _ _ hi => ⟨hi, rfl⟩) ?_ ?_ ?_ ?_⟩, hnprocs⟩
        · change s.machine.procNprocs ≤ k.procNprocs
          rw [hnprocs]
          exact Nat.le_succ _
        · intro q hq hq'
          rw [hview'] at hq hq'
          have hne : q ≠ pid := by
            rintro rfl
            rw [update_self] at hq'
            exact hq' rfl
          rw [update_of_ne hne] at hq hq'
          exact h.mapped q hq hq'
        · intro j hj
          refine hother j ?_
          rintro rfl
          change (k.procSet j).status.started = true at hj
          rw [hself] at hj
          exact absurd hj (by decide)
        · intro q hq
          rw [hview'] at hq
          by_cases hqp : q = pid
          · rw [hqp, update_self] at hq
            exact absurd hq (by simp)
          · rwa [update_of_ne hqp] at hq
        · intro q hq
          rw [hview'] at hq
          by_cases hqp : q = pid
          · rw [hqp]
            exact hnone
          · rw [update_of_ne hqp] at hq
            exact h.loading q hq
        · intro j hj
          change (k.procSet j).status = .ready at hj
          have hji : j ≠ i := by
            rintro rfl
            exact absurd (hself.symm.trans hj) (by decide)
          change s.stop (k.procSet j).pid = none
          rw [hother j hji] at hj ⊢
          exact h.ready j hj
      · exact absurd hs (by simp)

theorem Ok.procSetReady {pid : ℤ} (h : s.Ok cur) (hs : s.step (.procSetReady pid) = some s') :
    (∃ cur', s'.Ok cur') ∧ s'.machine.procNprocs = s.machine.procNprocs := by
  unfold step at hs
  dsimp only at hs
  split at hs
  · rename_i hc
    obtain ⟨-, hload, hframe⟩ := hc
    obtain rfl := Option.some.inj hs
    obtain ⟨hk, hview⟩ := Kernel.procSetReady_spec h.tab hload
    have hview' : ∀ q, (s.machine.update (s.machine.tab.procSetReady pid)).tab.view q =
        update s.machine.tab.view pid .run q := by
      intro q
      rw [← hview]
      rfl
    have hpid : ∀ j, ((s.machine.tab.procSetReady pid).procSet j).pid =
        (s.machine.procSet j).pid := by
      intro j
      simp only [Kernel.procSetReady, Kernel.procSetStatus]
      split <;> rfl
    have hcurr : (s.machine.tab.procSetReady pid).currPid = s.currPid := hpid _
    have hslot : ∀ j, (s.machine.procSet j).pid ≠ pid →
        (s.machine.tab.procSetReady pid).procSet j = s.machine.procSet j :=
      fun j hj => if_neg hj
    have hself : ∀ j, (s.machine.procSet j).pid = pid →
        ((s.machine.tab.procSetReady pid).procSet j).status = .ready := by
      intro j hj
      exact congrArg Process.status (if_pos hj)
    have hat : (s.machine.update (s.machine.tab.procSetReady pid)).tab.AtUser := by
      refine ⟨⟨hk.inj, hk.pos, hk.le⟩, hk.running, ?_⟩
      exact h.vm.trans hcurr.symm
    refine ⟨⟨cur, h.processes h.priv hat rfl hcurr le_rfl ?_ (fun _ _ hi => ⟨hi, rfl⟩) ?_ ?_ ?_ ?_⟩,
      rfl⟩
    · intro q hq hq'
      by_cases hqp : q = pid
      · rw [hqp]
        exact hframe
      · rw [hview', update_of_ne hqp] at hq hq'
        exact h.mapped q hq hq'
    · intro j hj
      refine hslot j ?_
      intro hjp
      change ((s.machine.tab.procSetReady pid).procSet j).status.started = true at hj
      rw [hself j hjp] at hj
      exact absurd hj (by decide)
    · intro q hq
      rw [hview'] at hq
      exact of_update_run hq (by simp)
    · intro q hq
      rw [hview'] at hq
      exact h.loading q (of_update_run hq (by simp))
    · intro j hj
      change s.stop ((s.machine.tab.procSetReady pid).procSet j).pid = none
      by_cases hjp : (s.machine.procSet j).pid = pid
      · rw [hpid, hjp]
        exact h.loading pid hload
      · change ((s.machine.tab.procSetReady pid).procSet j).status = .ready at hj
        rw [hslot j hjp] at hj ⊢
        exact h.ready j hj
  · exact absurd hs (by simp)

theorem Ok.procFree {pid : ℤ} (h : s.Ok cur) (hs : s.step (.procFree pid) = some s') :
    (∃ cur', s'.Ok cur') ∧ s'.machine.procNprocs = s.machine.procNprocs := by
  unfold step at hs
  dsimp only at hs
  split at hs
  · rename_i hc
    obtain ⟨hcurr, hne⟩ := hc
    obtain rfl := Option.some.inj hs
    have hfrees := Machine.procFree_frees h.priv pid
    have hnot : if pid = -1 then s.machine.tab.currPid < GPID_USER_START
        else pid ≠ s.machine.tab.currPid := by
      have hcurr' : s.machine.tab.currPid = GPID_PROCESS := hcurr
      rw [hcurr']
      split
      · decide
      · exact hne
    obtain ⟨hk, hview⟩ := Kernel.procFree_spec h.tab pid hnot
    have hview' : ∀ q, (s.machine.procFree pid).tab.view q =
        if (if pid = -1 then q ≥ GPID_USER_START else q = pid) then .dead
        else s.machine.tab.view q := by
      intro q
      exact congrFun hview q
    have hfreed := Kernel.procFree_eq s.machine.tab pid
    have hprocs : (s.machine.procFree pid).procSet = (s.machine.tab.freed fun p =>
        if pid = -1 then p ≥ GPID_USER_START else p = pid).procSet := by
      rw [← hfreed]
      rfl
    have hidx : (s.machine.procFree pid).procCurrIdx = s.machine.procCurrIdx := by
      change (s.machine.tab.procFree pid).procCurrIdx = _
      rw [hfreed]
      rfl
    have hn : (s.machine.procFree pid).procNprocs = s.machine.procNprocs := by
      change (s.machine.tab.procFree pid).procNprocs = _
      rw [hfreed]
      rfl
    have hpid : ∀ j, ((s.machine.procFree pid).procSet j).pid = (s.machine.procSet j).pid := by
      intro j
      rw [hprocs]
      exact Kernel.pid_freed _ _ j
    have hcurr' : (s.machine.procFree pid).tab.currPid = s.currPid := by
      change ((s.machine.procFree pid).procSet (s.machine.procFree pid).procCurrIdx).pid = _
      rw [hpid, hidx]
      rfl
    -- a slot is as it was, or not in use any more
    have hslot : ∀ j, (s.machine.procFree pid).procSet j = s.machine.procSet j ∨
        ((s.machine.procFree pid).procSet j).status = .unused := by
      intro j
      rw [hprocs]
      by_cases hgone : if pid = -1 then (s.machine.procSet j).pid ≥ GPID_USER_START
          else (s.machine.procSet j).pid = pid
      · exact Or.inr (congrArg Process.status (if_pos hgone))
      · exact Or.inl (if_neg hgone)
    have hold : ∀ q x, (s.machine.procFree pid).tab.view q = x → x ≠ .dead →
        s.machine.tab.view q = x := by
      intro q x hq hx
      rw [hview'] at hq
      by_cases hgone : if pid = -1 then q ≥ GPID_USER_START else q = pid
      · rw [if_pos hgone] at hq
        exact absurd hq.symm hx
      · rwa [if_neg hgone] at hq
    have hat : (s.machine.procFree pid).tab.AtUser := by
      refine ⟨⟨hk.inj, hk.pos, hk.le⟩, hk.running, ?_⟩
      exact (hfrees.curr.trans h.vm).trans hcurr'.symm
    refine ⟨⟨cur, h.processes hfrees.priv hat hidx hcurr' hn.symm.le ?_ ?_ ?_ ?_ ?_ ?_⟩, hn⟩
    · intro q hq hq'
      rw [hview'] at hq hq'
      by_cases hgone : if pid = -1 then q ≥ GPID_USER_START else q = pid
      · rw [if_pos hgone] at hq
        exact absurd rfl hq
      · rw [if_neg hgone] at hq hq'
        obtain ⟨i, hi⟩ := h.mapped q hq hq'
        refine ⟨i, ?_⟩
        rcases hfrees.table i with hsame | ⟨-, hfree⟩
        · rw [Mmu.ScFrame, Mmu.Owned, hsame]
          exact hi
        · rw [hi.1.2] at hfree
          exact absurd hfree hgone
    · intro i q hi
      rcases hfrees.table i with hsame | ⟨hfree, -⟩
      · rw [Mmu.Owned, hsame] at hi
        rw [hsame]
        exact ⟨hi, rfl⟩
      · exact absurd (hi.1.symm.trans hfree) (by simp)
    · intro j hj
      rcases hslot j with hsame | hunused
      · exact hsame
      · rw [hunused] at hj
        exact absurd hj (by decide)
    · intro q hq
      exact hold q _ hq (by simp)
    · intro q hq
      exact h.loading q (hold q _ hq (by simp))
    · intro j hj
      rcases hslot j with hsame | hunused
      · rw [hsame] at hj ⊢
        exact h.ready j hj
      · exact absurd (hunused.symm.trans hj) (by decide)
  · exact absurd hs (by simp)

/-! ### Runs -/

/-- The counter stays below the sign bit if it leaves room for the processes to come. -/
def Room (s : System) (es : List Event) : Prop := s.machine.procNprocs + allocs es < 2 ^ 31

/-- **What one event preserves.** -/
theorem Ok.step {e : Event} {es : List Event} (h : s.Ok cur) (hroom : s.Room (e :: es))
    (hs : s.step e = some s') : (∃ cur', s'.Ok cur') ∧ s'.Room es := by
  have hle : allocs es ≤ allocs (e :: es) := by
    simp only [allocs, List.countP_cons]
    omega
  have hroom' : ∀ s'' : System, s''.machine.procNprocs = s.machine.procNprocs → s''.Room es := by
    intro s'' hn
    simp only [Room, hn] at hroom ⊢
    omega
  cases e with
  | write i f =>
      obtain ⟨hok, hn⟩ := h.write hs
      exact ⟨hok, hroom' s' hn⟩
  | trap id mepc registers =>
      have hn : s.machine.procNprocs < 2 ^ 31 := by
        simp only [Room] at hroom
        omega
      obtain ⟨hok, -, hn'⟩ := h.trap hn hs
      exact ⟨hok, hroom' s' hn'⟩
  | mmuAlloc =>
      obtain ⟨hok, hn⟩ := h.mmuAlloc hs
      exact ⟨hok, hroom' s' hn⟩
  | load f =>
      obtain ⟨hok, hn⟩ := h.load hs
      exact ⟨hok, hroom' s' hn⟩
  | softTlbMap pid pageNo i =>
      obtain ⟨hok, hn⟩ := h.softTlbMap hs
      exact ⟨hok, hroom' s' hn⟩
  | procAlloc =>
      have hone : allocs (.procAlloc :: es) = allocs es + 1 := List.countP_cons_of_pos rfl
      simp only [Room, hone] at hroom
      obtain ⟨hok, hn⟩ := h.procAlloc (by omega) hs
      refine ⟨hok, ?_⟩
      rw [Room, hn]
      omega
  | procSetReady pid =>
      obtain ⟨hok, hn⟩ := h.procSetReady hs
      exact ⟨hok, hroom' s' hn⟩
  | procFree pid =>
      obtain ⟨hok, hn⟩ := h.procFree hs
      exact ⟨hok, hroom' s' hn⟩

/-- **Every run keeps the invariant.** -/
theorem Ok.run : ∀ {es : List Event} {s s' : System} {cur : Fin 256 → Page}, s.Ok cur → s.Room es →
    s.run es = some s' → (∃ cur', s'.Ok cur') ∧ s'.machine.procNprocs < 2 ^ 31 := by
  intro es
  induction es with
  | nil =>
      intro s s' cur h hroom hrun
      obtain rfl := Option.some.inj hrun
      exact ⟨⟨cur, h⟩, hroom⟩
  | cons e es ih =>
      intro s s' cur h hroom hrun
      rw [System.run, List.foldlM_cons] at hrun
      obtain ⟨s₁, h₁, hrest⟩ := Option.bind_eq_some_iff.1 hrun
      obtain ⟨⟨cur₁, hok₁⟩, hroom₁⟩ := h.step hroom h₁
      exact ih hok₁ hroom₁ hrest

/-- The system at its start, once the first process is loaded. -/
theorem boot_ok {sp : Spaces} (hsp : sp.Ok) {i : Fin 256} (hi : sp.mmu.ScFrame GPID_PROCESS i)
    (registers : Fin 29 → UInt32) : (boot sp registers).Ok sp.own := by
  obtain ⟨hpriv, hcurr, htable, -⟩ := hsp.mmu.softTlbSwitch (show GPID_PROCESS ≠ 0 by decide)
  have hk : (bootTab registers).AtUser := Kernel.boot_atUser _ registers
  have hzero : ∀ j : Fin 8, j ≠ 0 → (bootTab registers).procSet j =
      ⟨0, .unused, 0, fun _ => 0, 0⟩ := by
    intro j hj
    simp [bootTab, Kernel.boot, hj]
  have hslot : ∀ q, (bootTab registers).view q ≠ .dead → q = GPID_PROCESS := by
    intro q hdead
    obtain ⟨j, hj, h0, -⟩ := hk.exists_slot hdead
    by_cases hj0 : j = 0
    · subst hj0
      exact hj.symm
    · rw [hzero j hj0] at hj
      exact absurd hj.symm h0
  refine ⟨hpriv, ⟨⟨hk.inj, hk.pos, hk.le⟩, hk.running, hcurr⟩, ?_, fun _ _ _ _ _ => rfl, ?_, ?_, ?_,
    ?_, fun _ _ => rfl, fun _ _ => rfl⟩
  · intro q hdead _
    obtain rfl := hslot q hdead
    exact ⟨i, (Mmu.scFrame_congr htable _ i).2 hi⟩
  · intro _ _ _ _ _ hst
    exact absurd hst (by simp [boot])
  · intro j hj hstarted
    have hj0 : j ≠ 0 := hj
    change ((bootTab registers).procSet j).status.started = true at hstarted
    rw [hzero j hj0] at hstarted
    exact absurd hstarted (by decide)
  · intro q hq
    change (bootTab registers).view q = .waitRecv at hq
    obtain rfl := hslot q (by rw [hq]; simp)
    exact absurd (hk.view_currPid.symm.trans hq) (by simp)
  · intro _ _ hst
    exact absurd hst (by simp [boot])

/-- **A process goes on where it stopped.**  In every run, as long as the pids do not wrap, a trap
returns to a process that is new and starts at the entry point, or finds its program counter, its
registers and its pages as they were at its last trap.  Of the pages, the kernel has written to the
`struct syscall`: its type and its return value, the sender of a message that the process sends, and
the message that it receives. -/
theorem trap_returns (p : Paging) (ops : List Spaces.Op) {sp : Spaces} {i : Fin 256}
    (hload : (Spaces.start p).run ops = some sp) (hfirst : sp.mmu.ScFrame GPID_PROCESS i)
    (registers : Fin 29 → UInt32) (es : List Event) (hallocs : 1 + allocs es < 2 ^ 31)
    (hrun : (boot sp registers).run es = some s) {id : Kernel.IntrId} {mepc : UInt32}
    {registers' : Fin 29 → UInt32} (htrap : s.step (.trap id mepc registers') = some s') :
    Returned s s' := by
  have hboot := boot_ok ((Spaces.start_ok p).run hload) hfirst registers
  obtain ⟨⟨cur, hok⟩, hn⟩ := hboot.run hallocs hrun
  exact (hok.trap hn htrap).2.1

/-- The page with the `struct syscall` of the first process is mapped. -/
def firstPage : List Spaces.Op := [.mmuAlloc, .softTlbMap 1 0x80000 0]

/-- A page with a system call, which has the given type and receiver. -/
def callPage (type receiver : ℕ) : Page :=
  (Page.setScType (fun _ => nullBlock) type).setWord 2 2 receiver

/-- The first process creates another one and waits for a message, with 1 in its registers.  The
new process is started, and is to send it a message. -/
def waitAndSend : List Event :=
  [.procAlloc, .mmuAlloc, .softTlbMap 2 0x80000 1, .procSetReady 2, .write 0 fun _ => callPage 1 0,
    .trap .soft 0x08005100 fun _ => 1, .write 1 fun _ => callPage 2 1]

set_option maxRecDepth 100000 in
/-- The first process goes on where it has waited. -/
theorem trap_returns_waitAndSend :
    ∃ sp s s', (Spaces.start (Paging.board .arty fun _ => 0)).run firstPage = some sp ∧
      sp.mmu.ScFrame GPID_PROCESS 0 ∧ (boot sp fun _ => 0).run waitAndSend = some s ∧
      s.currPid = 2 ∧ s.step (.trap .soft 0x08005200 fun _ => 2) = some s' ∧ s'.currPid = 1 ∧
      s'.machine.mepc = 0x08005100 ∧ s'.machine.registers 0 = 1 ∧ Returned s s' := by
  have hrun : ((Spaces.start (Paging.board .arty fun _ => 0)).run firstPage).any (fun sp =>
      decide (sp.mmu.ScFrame GPID_PROCESS 0) &&
        ((boot sp fun _ => 0).run waitAndSend).any (fun s => decide (s.currPid = 2) &&
          (s.step (.trap .soft 0x08005200 fun _ => 2)).any (fun s' => s'.currPid = 1 ∧
            s'.machine.mepc = 0x08005100 ∧ s'.machine.registers 0 = 1))) = true := by
    decide +kernel
  obtain ⟨sp, hsp, hrun⟩ := (Option.any_eq_true _ _).1 hrun
  obtain ⟨hframe, hrun⟩ := Bool.and_eq_true_iff.1 hrun
  obtain ⟨s, hs, hrun⟩ := (Option.any_eq_true _ _).1 hrun
  obtain ⟨hcurr, hrun⟩ := Bool.and_eq_true_iff.1 hrun
  obtain ⟨s', hs', hback⟩ := (Option.any_eq_true _ _).1 hrun
  obtain ⟨hcurr', hmepc, hreg⟩ := of_decide_eq_true hback
  exact ⟨sp, s, s', hsp, of_decide_eq_true hframe, hs, of_decide_eq_true hcurr, hs', hcurr', hmepc,
    hreg, trap_returns _ _ hsp (of_decide_eq_true hframe) _ waitAndSend (by decide) hs hs'⟩

set_option maxRecDepth 100000 in
/-- **A process that sends finds its own pid in its message.**  The first process sends to a
receiver that does not exist, and goes on at once: the kernel has written to `msg.sender`. -/
theorem sender_overwritten :
    ∃ sp s s' st, (Spaces.start (Paging.board .arty fun _ => 0)).run firstPage = some sp ∧
      (boot sp fun _ => 0).run [.write 0 fun _ => callPage 2 99] = some s ∧
      s.step (.trap .soft APPS_ENTRY fun _ => 0) = some s' ∧ s'.currPid = 1 ∧
      s'.stop 1 = some st ∧ (st.mem scPageNo).syscall.type = .send ∧
      (st.mem scPageNo).syscall.msg.sender = 0 ∧
      (s'.machine.mmu.mem scPageNo).syscall.msg.sender = 1 := by
  have hrun : ((Spaces.start (Paging.board .arty fun _ => 0)).run firstPage).any (fun sp =>
      ((boot sp fun _ => 0).run [.write 0 fun _ => callPage 2 99]).any (fun s =>
        (s.step (.trap .soft APPS_ENTRY fun _ => 0)).any (fun s' =>
          (s'.stop 1).any (fun st => s'.currPid = 1 ∧ (st.mem scPageNo).syscall.type = .send ∧
            (st.mem scPageNo).syscall.msg.sender = 0 ∧
            (s'.machine.mmu.mem scPageNo).syscall.msg.sender = 1)))) = true := by
    decide +kernel
  obtain ⟨sp, hsp, hrun⟩ := (Option.any_eq_true _ _).1 hrun
  obtain ⟨s, hs, hrun⟩ := (Option.any_eq_true _ _).1 hrun
  obtain ⟨s', hs', hrun⟩ := (Option.any_eq_true _ _).1 hrun
  obtain ⟨st, hst, hfacts⟩ := (Option.any_eq_true _ _).1 hrun
  obtain ⟨hcurr, hty, hold, hnew⟩ := of_decide_eq_true hfacts
  exact ⟨sp, s, s', st, hsp, hs, hs', hcurr, hst, hty, hold, hnew⟩

end System

end Egos
