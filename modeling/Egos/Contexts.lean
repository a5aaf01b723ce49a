/-
**The contexts of processes** (`grass/kernel.c`).

The kernel saves the program counter and the registers of the process that traps into its slot of
the process table, and restores those of the process that it has selected in the meantime.  Every
other part of the kernel leaves the saved contexts alone, but for the slot of a process that is
started.

Main definitions:

* `Egos.SameContext` — a slot keeps its saved context;
* `Egos.Kernel.Resumes` — the kernel goes on with a process, which has its saved context or is new.

Main results:

* `Egos.Kernel.kernelEntry_resumes` — **a trap goes on with a process as it was saved.**
-/

import Egos.KernelSpec

set_option autoImplicit false

namespace Egos

/-- The process has run, so that its slot holds its context. -/
def ProcStatus.started : ProcStatus → Bool
  | .unused | .loading | .ready => false
  | .running | .runnable | .waitToSend | .waitToRecv => true

/-- The saved context is kept, and a process that has run is told from one that has not. -/
structure SameContext (p p' : Process) : Prop where
  mepc : p'.mepc = p.mepc
  savedRegister : p'.savedRegister = p.savedRegister
  started : p'.status.started = p.status.started
  ready : p'.status = .ready ↔ p.status = .ready

theorem SameContext.refl (p : Process) : SameContext p p := ⟨rfl, rfl, rfl, Iff.rfl⟩

theorem SameContext.trans {p p' p'' : Process} (h : SameContext p p') (h' : SameContext p' p'') :
    SameContext p p'' :=
  ⟨h'.mepc.trans h.mepc, h'.savedRegister.trans h.savedRegister, h'.started.trans h.started,
    h'.ready.trans h.ready⟩

/-- A process that has run gets another status, with which it has run too. -/
theorem SameContext.of_started {p p' : Process} (hmepc : p'.mepc = p.mepc)
    (hsaved : p'.savedRegister = p.savedRegister) (h : p.status.started = true)
    (h' : p'.status.started = true) : SameContext p p' := by
  refine ⟨hmepc, hsaved, h'.trans h.symm, ?_⟩
  constructor
  · intro hready
    rw [hready] at h'
    exact absurd h' (by decide)
  · intro hready
    rw [hready] at h
    exact absurd h (by decide)

namespace Kernel

variable {M : Type} {k k₁ k' : Kernel M}

/-- All slots keep their contexts. -/
def KeepsContexts (k k' : Kernel M) : Prop := ∀ j, SameContext (k.procSet j) (k'.procSet j)

/-- **The kernel goes on with a process.** -/
structure Resumes (k k' : Kernel M) : Prop where
  other : ∀ j, j ≠ k'.procCurrIdx → SameContext (k.procSet j) (k'.procSet j)
  /-- A new process is started at the entry point. -/
  ready : (k.procSet k'.procCurrIdx).status = .ready →
    (k'.procSet k'.procCurrIdx).mepc = APPS_ENTRY ∧
      (k'.procSet k'.procCurrIdx).savedRegister 8 = APPS_ARG ∧
      (k'.procSet k'.procCurrIdx).savedRegister 9 = APPS_ARG + 4
  /-- Any other process has its saved context. -/
  started : (k.procSet k'.procCurrIdx).status ≠ .ready →
    (k.procSet k'.procCurrIdx).status.started = true ∧
      SameContext (k.procSet k'.procCurrIdx) (k'.procSet k'.procCurrIdx)

theorem KeepsContexts.resumes (h : KeepsContexts k k₁) (h' : Resumes k₁ k') : Resumes k k' := by
  refine ⟨?_, ?_, ?_⟩
  · intro j hj
    exact (h j).trans (h'.other j hj)
  · intro hready
    exact h'.ready ((h _).ready.2 hready)
  · intro hready
    obtain ⟨hstarted, hsame⟩ := h'.started (mt (h _).ready.1 hready)
    exact ⟨(h _).started.symm.trans hstarted, (h _).trans hsame⟩

/-- What a step does to the memory does not matter. -/
theorem Resumes.of_procSet (h : Resumes k₁ k') (hp : k₁.procSet = k.procSet) : Resumes k k' := by
  have hkeeps : KeepsContexts k k₁ := by
    intro j
    rw [hp]
    exact SameContext.refl _
  exact hkeeps.resumes h

/-- A new process is not the current one. -/
theorem AtUser.ready_ne (hk : k.AtUser) {j : Fin 8} (hj : (k.procSet j).status = .ready) :
    (k.procSet j).pid ≠ k.currPid := by
  intro hpid
  have hjc : j = k.procCurrIdx := by
    refine hk.inj j _ hpid ?_
    rw [hpid]
    exact hk.currPid_pos.ne'
  rw [(hk.running j).2 hjc] at hj
  exact absurd hj (by decide)

/-- The kernel goes on with the current process. -/
theorem AtUser.resumes_self (hk : k.AtUser) (hp : k'.procSet = k.procSet)
    (hc : k'.procCurrIdx = k.procCurrIdx) : Resumes k k' := by
  have hrunning : (k.procSet k'.procCurrIdx).status = .running := by
    rw [hc]
    exact (hk.running _).2 rfl
  refine ⟨?_, ?_, ?_⟩
  · intro j _
    rw [hp]
    exact SameContext.refl _
  · intro hready
    rw [hrunning] at hready
    exact absurd hready (by decide)
  · intro _
    rw [hp, hrunning]
    exact ⟨rfl, SameContext.refl _⟩

/-- An assignment to a slot whose process has run, and has run afterwards. -/
theorem keepsContexts_setProc {i : Fin 8} {f : Process → Process}
    (h : (k.procSet i).status.started = true) (h' : (f (k.procSet i)).status.started = true)
    (hmepc : (f (k.procSet i)).mepc = (k.procSet i).mepc)
    (hsaved : (f (k.procSet i)).savedRegister = (k.procSet i).savedRegister) :
    KeepsContexts k (k.setProc i f) := by
  intro j
  by_cases hj : j = i
  · rw [hj, setProc_self]
    exact SameContext.of_started hmepc hsaved h h'
  · rw [setProc_of_ne k hj]
    exact SameContext.refl _

theorem keepsContexts_parkCurr (hk : k.TableOk) : KeepsContexts k k.parkCurr := by
  unfold parkCurr
  by_cases hs : k.currStatus = .running
  · have hstatus : (k.procSet k.procCurrIdx).status = .running := hs
    have h0 : (k.procSet k.procCurrIdx).pid ≠ 0 := by
      refine (hk.pos _ ?_).ne'
      rw [hstatus]
      decide
    rw [if_pos hs, procSetRunnable, currPid, hk.procSetStatus h0]
    exact keepsContexts_setProc (by rw [hstatus]; rfl) rfl rfl rfl
  · rw [if_neg hs]
    intro j
    exact SameContext.refl _

/-- Switching to a process starts it if it is new. -/
theorem TableOk.resumes_switchTo (hk : k.TableOk) {next : Fin 8}
    (hnext : ProcStatus.schedulable (k.procSet next).status = true) :
    Resumes k (k.switchTo next) := by
  have hpos : (k.procSet next).status ≠ .unused := by
    intro hs
    rw [hs] at hnext
    exact absurd hnext (by decide)
  have h0 : (k.procSet next).pid ≠ 0 := (hk.pos next hpos).ne'
  obtain ⟨f, -, -, heq⟩ := hk.switchTo_eq h0
  have hcurr : (k.switchTo next).procCurrIdx = next := by rw [heq]
  have hother : ∀ j, j ≠ next → (k.switchTo next).procSet j = k.procSet j := by
    intro j hj
    rw [heq]
    exact setProc_of_ne k hj f
  refine ⟨?_, ?_, ?_⟩ <;> rw [hcurr]
  · intro j hj
    rw [hother j hj]
    exact SameContext.refl _
  · intro hready
    simp [switchTo, mmuSwitch, procSetRunning, Kernel.procSetStatus, currPid, currStatus, hready,
      Kernel.setProc]
  · intro hready
    have hself : (k.switchTo next).procSet next = { k.procSet next with status := .running } := by
      simp [switchTo, mmuSwitch, procSetRunning, Kernel.procSetStatus, currPid, currStatus, hready]
    have hstarted : (k.procSet next).status.started = true := by
      cases hs : (k.procSet next).status <;> simp [hs, ProcStatus.schedulable] at hnext hready <;>
        rfl
    rw [hself]
    exact ⟨hstarted, SameContext.of_started rfl rfl hstarted rfl⟩

/-- **`proc_yield`** goes on with a process. -/
theorem procYield_resumes (hk : k.TableOk)
    (hrun : ∀ i, (k.procSet i).status = .running → i = k.procCurrIdx) (h : k.procYield = .ok k') :
    Resumes k k' := by
  obtain ⟨next, -, hnext, rfl⟩ := procYield_cases h
  obtain ⟨hk₁, -, -, hsched⟩ := parkCurr_spec hk hrun
  exact (keepsContexts_parkCurr hk).resumes (hk₁.resumes_switchTo (hsched next hnext))

/-- The current process waits. -/
theorem AtUser.resumes_block (hk : k.AtUser) {f : Process → Process}
    (hpid : (f (k.procSet k.procCurrIdx)).pid = (k.procSet k.procCurrIdx).pid)
    (hmepc : (f (k.procSet k.procCurrIdx)).mepc = (k.procSet k.procCurrIdx).mepc)
    (hsaved : (f (k.procSet k.procCurrIdx)).savedRegister = (k.procSet k.procCurrIdx).savedRegister)
    (hstatus : (f (k.procSet k.procCurrIdx)).status.started = true)
    (h : (k.setProc k.procCurrIdx f).procYield = .ok k') : Resumes k k' := by
  have hrunning : (k.procSet k.procCurrIdx).status = .running := (hk.running _).2 rfl
  have hkeeps : KeepsContexts k (k.setProc k.procCurrIdx f) :=
    keepsContexts_setProc (by rw [hrunning]; rfl) hstatus hmepc hsaved
  refine hkeeps.resumes (procYield_resumes (hk.setProc hpid hk.currPid_pos.ne') ?_ h)
  intro i hi
  by_cases hc : i = k.procCurrIdx
  · exact hc
  · rw [setProc_of_ne k hc] at hi
    exact (hk.running i).1 hi

/-- A process that has run is woken up, and the current one gives up the processor. -/
theorem TableOk.resumes_wake (hk : k.TableOk)
    (hrun : ∀ i, (k.procSet i).status = .running ↔ i = k.procCurrIdx) {i : Fin 8}
    (hi : (k.procSet i).status.started = true)
    (h : (k.procSetRunnable (k.procSet i).pid).procYield = .ok k') : Resumes k k' := by
  have h0 : (k.procSet i).pid ≠ 0 := by
    refine (hk.pos i ?_).ne'
    intro hs
    rw [hs] at hi
    exact absurd hi (by decide)
  rw [procSetRunnable, hk.procSetStatus h0] at h
  have hkeeps : KeepsContexts k (k.setProc i fun p => { p with status := .runnable }) :=
    keepsContexts_setProc hi rfl rfl rfl
  refine hkeeps.resumes (procYield_resumes (hk.setProc rfl h0) ?_ h)
  intro j hj
  by_cases hc : j = i
  · rw [hc, setProc_self] at hj
    exact absurd hj (by simp)
  · rw [setProc_of_ne k hc] at hj
    exact (hrun j).1 hj

theorem procRecv_resumes (hk : k.AtUser) (h : k.procRecv = .ok k') : Resumes k k' := by
  rw [procRecv] at h
  rcases findSender_cases k with ⟨hs, -⟩ | ⟨i, hst, -, hpid⟩
  · rw [hs, if_pos rfl] at h
    exact hk.resumes_block rfl rfl rfl rfl h
  · have hipos := hk.pos i (by simp [hst])
    rw [if_neg (by omega), ← hpid] at h
    have hstarted : (k.procSet i).status.started = true := by
      rw [hst]
      rfl
    -- copying the message changes the memory only
    have hwake := TableOk.resumes_wake (k := k.copyMsg (k.procSet i).pid k.currPid)
      (hk.toTableOk.congr _ rfl rfl) hk.running hstarted h
    exact hwake.of_procSet rfl

theorem procSendTo_resumes (hk : k.AtUser) {q : ℤ} (h : k.procSendTo q = .ok k') :
    Resumes k k' := by
  rw [procSendTo] at h
  cases hf : k.findPid q with
  | none =>
      rw [hf] at h
      obtain rfl := Except.ok.inj h
      exact hk.resumes_self rfl rfl
  | some i =>
      obtain rfl := findPid_some hf
      rw [hf] at h
      by_cases hst : (k.procSet i).status = .waitToRecv
      · simp only [hst, ne_eq, not_true_eq_false, if_false] at h
        have hstarted : (k.procSet i).status.started = true := by
          rw [hst]
          rfl
        have hwake := TableOk.resumes_wake (k := k.copyMsg k.currPid (k.procSet i).pid)
          (hk.toTableOk.congr _ rfl rfl) hk.running hstarted h
        exact hwake.of_procSet rfl
      · simp only [hst, ne_eq, not_false_eq_true, if_true] at h
        exact hk.resumes_block rfl rfl rfl rfl h

theorem procSyscall_resumes (hk : k.AtUser) (h : k.procSyscall = .ok k') : Resumes k k' := by
  rw [procSyscall] at h
  have hk₁ := (hk.setSc fun sc => { sc with retval := 0, type := .unused }).1
  cases hty : k.sc.type with
  | unused => simp [hty] at h
  | ncalls => simp [hty] at h
  | recv =>
      simp only [hty] at h
      exact (procRecv_resumes hk₁ h).of_procSet rfl
  | send =>
      simp only [hty] at h
      rw [procSend] at h
      have hk₂ := (hk₁.setSc fun sc => { sc with msg := { sc.msg with sender := k.currPid } }).1
      exact (procSendTo_resumes hk₂ h).of_procSet rfl

/-- The context of the current process, in its slot. -/
def save (k : Kernel M) : Kernel M :=
  k.setProc k.procCurrIdx fun p => { p with mepc := k.mepc, savedRegister := k.registers }

/-- **A trap goes on with a process as it was saved**, or starts a new one. -/
theorem kernelEntry_resumes {id : IntrId} (hk : k.AtUser) (h : k.kernelEntry id false = .ok k') :
    Resumes k.save k' ∧ k'.mepc = (k'.procSet k'.procCurrIdx).mepc ∧
      k'.registers = (k'.procSet k'.procCurrIdx).savedRegister := by
  rw [kernelEntry] at h
  obtain ⟨hk₀, -⟩ := hk.save rfl
  change k.save.AtUser at hk₀
  change (do
    let k ← k.save.intrEntry id false
    return { k with
      mepc := (k.procSet k.procCurrIdx).mepc
      registers := (k.procSet k.procCurrIdx).savedRegister }) = _ at h
  cases hi : k.save.intrEntry id false with
  | error e =>
      rw [hi] at h
      exact absurd h (by simp [bind, Except.bind])
  | ok k₁ =>
      rw [hi] at h
      obtain rfl := Except.ok.inj h
      refine ⟨?_, rfl, rfl⟩
      have hres : Resumes k.save k₁ := by
        unfold intrEntry at hi
        split at hi
        · obtain rfl := Except.ok.inj hi
          exact hk₀.resumes_self rfl rfl
        · simp only [Bool.false_eq_true, false_and, if_false] at hi
          cases id with
          | soft => exact procSyscall_resumes hk₀ hi
          | timer =>
              exact procYield_resumes hk₀.toTableOk (fun i hi => (hk₀.running i).1 hi) hi
      exact ⟨hres.other, hres.ready, hres.started⟩

end Kernel

end Egos
