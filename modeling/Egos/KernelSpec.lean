/-
**What the operations of the kernel do to the processes.**

The process table is searched by pid and by status all over the kernel.  Between traps it satisfies
an invariant — the pids are distinct, and the slot of the current process is the only running one —
and under this invariant the table is a map from pids to process states.  The map, and the
`struct syscall` of each process, is all that matters to the processes; the specifications here say
how every operation changes them.

Main definitions:

* `Egos.Kernel.TableOk`, `Egos.Kernel.AtUser` — the invariants of the table, inside the kernel and
  whenever control is outside the kernel;
* `Egos.Kernel.view` — the state of the process with a given pid;
* `Egos.Kernel.Handled` — the possible outcomes of a system call.

Main results:

* `Egos.Kernel.procYield_spec` — scheduling changes no state of a process;
* `Egos.Kernel.kernelEntry_soft`, `Egos.Kernel.kernelEntry_timer` — **what a trap does**;
* `Egos.Kernel.procAlloc_spec`, `Egos.Kernel.procSetReady_spec`, `Egos.Kernel.procFree_spec` —
  creating and freeing processes.
-/

import Egos.Kernel

set_option autoImplicit false

namespace Egos

open Function (update update_eq_self update_idem update_of_ne update_self)

/-- The state of a process, as far as other processes are concerned. -/
inductive PView
  | dead
  | loading
  /-- The process runs or can be scheduled. -/
  | run
  | waitSend (q : ℤ)
  | waitRecv
  deriving DecidableEq

/-- The state of the process in a slot. -/
def Process.view (p : Process) : PView :=
  match p.status with
  | .unused => .dead
  | .loading => .loading
  | .ready => .run
  | .running => .run
  | .runnable => .run
  | .waitToSend => .waitSend p.receiverPid
  | .waitToRecv => .waitRecv

namespace Kernel

variable {M : Type} {k k' : Kernel M}

/-! ### The process table -/

/-- **The process table is in order.** -/
structure TableOk (k : Kernel M) : Prop where
  /-- No two slots have been given the same pid. -/
  inj : ∀ i j, (k.procSet i).pid = (k.procSet j).pid → (k.procSet i).pid ≠ 0 → i = j
  /-- The slots in use have a pid. -/
  pos : ∀ i, (k.procSet i).status ≠ .unused → 0 < (k.procSet i).pid
  /-- Pids are given out in increasing order. -/
  le : ∀ i, 0 ≤ (k.procSet i).pid ∧ (k.procSet i).pid ≤ k.procNprocs

/-- **The state of the kernel whenever control is outside it.** -/
structure AtUser (k : Kernel M) : Prop extends TableOk k where
  /-- The current process is the only one running. -/
  running : ∀ i, (k.procSet i).status = .running ↔ i = k.procCurrIdx
  /-- Its address space is switched in. -/
  vm : k.vmPid = k.currPid

theorem AtUser.currPid_pos (h : k.AtUser) : 0 < k.currPid := by
  refine h.pos _ ?_
  rw [(h.running k.procCurrIdx).2 rfl]
  decide

/-- The state of the process with a given pid. -/
def view (k : Kernel M) (pid : ℤ) : PView :=
  match k.findPid pid with
  | some i => (k.procSet i).view
  | none => .dead

theorem findPid_some {i : Fin 8} {pid : ℤ} (h : k.findPid pid = some i) :
    (k.procSet i).pid = pid := by
  simpa [findPid] using List.find?_some h

theorem findPid_none {pid : ℤ} (h : k.findPid pid = none) (i : Fin 8) :
    (k.procSet i).pid ≠ pid := by
  simpa [findPid] using List.find?_eq_none.1 h i (List.mem_finRange i)

theorem TableOk.findPid (h : k.TableOk) {i : Fin 8} (h0 : (k.procSet i).pid ≠ 0) :
    k.findPid (k.procSet i).pid = some i := by
  cases hf : k.findPid (k.procSet i).pid with
  | none => exact absurd rfl (findPid_none hf i)
  | some j => rw [h.inj i j (findPid_some hf).symm h0]

theorem TableOk.view_pid (h : k.TableOk) {i : Fin 8} (h0 : (k.procSet i).pid ≠ 0) :
    k.view (k.procSet i).pid = (k.procSet i).view := by
  rw [view, h.findPid h0]

/-- The process with a pid that is not in state `dead` has a slot. -/
theorem TableOk.exists_slot (h : k.TableOk) {pid : ℤ} (hv : k.view pid ≠ .dead) :
    ∃ i, (k.procSet i).pid = pid ∧ pid ≠ 0 ∧ (k.procSet i).view = k.view pid := by
  rw [view] at hv ⊢
  cases hf : k.findPid pid with
  | none => simp [hf] at hv
  | some i =>
      have hpid := findPid_some hf
      refine ⟨i, hpid, ?_, rfl⟩
      have hpos := h.pos i (by rintro hs; simp [hf, Process.view, hs] at hv)
      omega

theorem view_eq_dead {pid : ℤ} (h : ∀ i, (k.procSet i).pid = pid → (k.procSet i).view = .dead) :
    k.view pid = .dead := by
  rw [view]
  cases hf : k.findPid pid with
  | none => rfl
  | some i => exact h i (findPid_some hf)

/-- Two tables agree on a pid if their live slots with this pid do. -/
theorem TableOk.view_eq_of (hk : k.TableOk) (hk' : k'.TableOk) {pid : ℤ}
    (h : ∀ i, (k.procSet i).pid = pid → (k.procSet i).view ≠ .dead →
      (k'.procSet i).pid = pid ∧ (k'.procSet i).view = (k.procSet i).view)
    (h' : ∀ i, (k'.procSet i).pid = pid → (k'.procSet i).view ≠ .dead →
      (k.procSet i).pid = pid ∧ (k.procSet i).view ≠ .dead) : k'.view pid = k.view pid := by
  by_cases hv : k.view pid = .dead
  · rw [hv]
    refine view_eq_dead fun i hi => ?_
    by_contra hne
    obtain ⟨hki, hlive⟩ := h' i hi hne
    have hpos := hk'.pos i (by rintro hs; simp [Process.view, hs] at hne)
    rw [← hk.view_pid (i := i) (by omega), hki] at hlive
    exact hlive hv
  · obtain ⟨i, hi, hi0, hvi⟩ := hk.exists_slot hv
    obtain ⟨hi', hvi'⟩ := h i hi (by rw [hvi]; exact hv)
    rw [← hvi, ← hvi', ← hi', hk'.view_pid (by rw [hi']; exact hi0)]

theorem AtUser.view_currPid (h : k.AtUser) : k.view k.currPid = .run := by
  have hpos := h.currPid_pos
  rw [currPid] at hpos ⊢
  rw [h.view_pid (by omega), Process.view, (h.running _).2 rfl]

/-! ### Assigning to a slot -/

@[simp] theorem setProc_self (k : Kernel M) (i : Fin 8) (f : Process → Process) :
    (k.setProc i f).procSet i = f (k.procSet i) := by
  simp [setProc]

theorem setProc_of_ne (k : Kernel M) {i j : Fin 8} (h : j ≠ i) (f : Process → Process) :
    (k.setProc i f).procSet j = k.procSet j := by
  simp [setProc, h]

/-- An assignment that changes no pid. -/
theorem pid_setProc {i : Fin 8} {f : Process → Process}
    (hf : (f (k.procSet i)).pid = (k.procSet i).pid) (j : Fin 8) :
    ((k.setProc i f).procSet j).pid = (k.procSet j).pid := by
  by_cases hj : j = i
  · subst hj
    rw [setProc_self, hf]
  · rw [setProc_of_ne k hj]

theorem TableOk.setProc (h : k.TableOk) {i : Fin 8} {f : Process → Process}
    (hf : (f (k.procSet i)).pid = (k.procSet i).pid) (h0 : (k.procSet i).pid ≠ 0) :
    (k.setProc i f).TableOk := by
  have hpid := pid_setProc hf
  refine ⟨fun a b => ?_, fun a ha => ?_, fun a => ?_⟩
  · rw [hpid, hpid]
    exact h.inj a b
  · rw [hpid]
    by_cases hi : a = i
    · have := h.le a
      subst hi
      omega
    · rw [setProc_of_ne k hi] at ha
      exact h.pos a ha
  · rw [hpid]
    exact h.le a

/-- The states after an assignment to a slot. -/
theorem TableOk.view_setProc (h : k.TableOk) {i : Fin 8} {f : Process → Process}
    (hf : (f (k.procSet i)).pid = (k.procSet i).pid) (h0 : (k.procSet i).pid ≠ 0) :
    (k.setProc i f).view = update k.view (k.procSet i).pid (f (k.procSet i)).view := by
  have hfind : (k.setProc i f).findPid = k.findPid := by
    funext pid
    simp only [Kernel.findPid, pid_setProc hf]
  funext pid
  by_cases hp : pid = (k.procSet i).pid
  · subst hp
    rw [view, hfind, h.findPid h0, update_self]
    simp
  · rw [update_of_ne hp, view, view, hfind]
    cases hj : k.findPid pid with
    | none => rfl
    | some j =>
        have hne : j ≠ i := fun he => hp (by rw [← findPid_some hj, he])
        simp only [setProc_of_ne k hne]

/-- Setting the status of a pid is an assignment to its slot. -/
theorem TableOk.procSetStatus (h : k.TableOk) {i : Fin 8} (h0 : (k.procSet i).pid ≠ 0)
    (st : ProcStatus) :
    k.procSetStatus (k.procSet i).pid st = k.setProc i fun p => { p with status := st } := by
  simp only [Kernel.procSetStatus, Kernel.setProc, Kernel.mk.injEq, and_true]
  funext j
  by_cases hj : j = i
  · subst hj
    simp
  · rw [update_of_ne hj, if_neg]
    intro he
    exact hj (h.inj i j he.symm h0).symm

/-! ### Scheduling -/

/-- What an operation may change without any process noticing: the current process, and which of the
processes that can be scheduled runs. -/
structure SameProcesses (k k' : Kernel M) : Prop where
  view : k'.view = k.view
  mem : k'.mem = k.mem
  nprocs : k'.procNprocs = k.procNprocs
  pid : ∀ i, (k'.procSet i).pid = (k.procSet i).pid

theorem SameProcesses.refl (k : Kernel M) : SameProcesses k k := ⟨rfl, rfl, rfl, fun _ => rfl⟩

theorem SameProcesses.trans {k₁ k₂ k₃ : Kernel M} (h : SameProcesses k₁ k₂)
    (h' : SameProcesses k₂ k₃) : SameProcesses k₁ k₃ :=
  ⟨h'.view.trans h.view, h'.mem.trans h.mem, h'.nprocs.trans h.nprocs, fun i =>
    (h'.pid i).trans (h.pid i)⟩

/-- An assignment to a slot that does not change the state of its process. -/
theorem TableOk.setProc_same (h : k.TableOk) {i : Fin 8} {f : Process → Process}
    (hf : (f (k.procSet i)).pid = (k.procSet i).pid) (h0 : (k.procSet i).pid ≠ 0)
    (hv : (f (k.procSet i)).view = (k.procSet i).view) : SameProcesses k (k.setProc i f) := by
  refine ⟨?_, rfl, rfl, pid_setProc hf⟩
  rw [h.view_setProc hf h0, hv, ← h.view_pid h0, update_eq_self]

theorem schedulable_view {p : Process} (h : ProcStatus.schedulable p.status = true) :
    p.view = .run := by
  rw [Process.view]
  cases hs : p.status <;> simp [hs, ProcStatus.schedulable] at h ⊢

theorem parkCurr_spec (hk : k.TableOk)
    (hrun : ∀ i, (k.procSet i).status = .running → i = k.procCurrIdx) :
    k.parkCurr.TableOk ∧ SameProcesses k k.parkCurr ∧
      (∀ i, (k.parkCurr.procSet i).status ≠ .running) ∧
      ∀ i, ProcStatus.schedulable (k.procSet i).status = true →
        ProcStatus.schedulable (k.parkCurr.procSet i).status = true := by
  rw [parkCurr]
  by_cases hs : k.currStatus = .running
  · have hs' : (k.procSet k.procCurrIdx).status = .running := hs
    have h0 : (k.procSet k.procCurrIdx).pid ≠ 0 := by
      have := hk.pos k.procCurrIdx (by simp [hs'])
      omega
    rw [if_pos hs, procSetRunnable, currPid, hk.procSetStatus h0]
    refine ⟨hk.setProc rfl h0, hk.setProc_same rfl h0 (by simp [Process.view, hs']), ?_, ?_⟩
    · intro i hi
      by_cases hc : i = k.procCurrIdx
      · subst hc
        simp at hi
      · rw [setProc_of_ne k hc] at hi
        exact hc (hrun i hi)
    · intro i hi
      by_cases hc : i = k.procCurrIdx
      · subst hc
        simp [ProcStatus.schedulable]
      · rw [setProc_of_ne k hc]
        exact hi
  · rw [if_neg hs]
    refine ⟨hk, SameProcesses.refl k, fun i hi => hs ?_, fun _ hi => hi⟩
    rw [currStatus, ← hrun i hi, hi]

/-- Switching to a process assigns to its slot, and starts the process if it is new. -/
theorem TableOk.switchTo_eq (hk : k.TableOk) {next : Fin 8} (h0 : (k.procSet next).pid ≠ 0) :
    ∃ f : Process → Process, (f (k.procSet next)).pid = (k.procSet next).pid ∧
      (f (k.procSet next)).status = .running ∧
      k.switchTo next = { k.setProc next f with
        procCurrIdx := next, vmPid := (k.procSet next).pid } := by
  have hne : ∀ j, j ≠ next → (k.procSet j).pid ≠ (k.procSet next).pid := fun j hj he =>
    hj (hk.inj next j he.symm h0).symm
  by_cases hs : (k.procSet next).status = .ready
  · refine ⟨fun p => { p with
        status := .running
        savedRegister := update (update p.savedRegister 8 APPS_ARG) 9
          (APPS_ARG + 4)
        mepc := APPS_ENTRY }, rfl, rfl, ?_⟩
    simp only [switchTo, mmuSwitch, currPid, currStatus, hs, Kernel.setProc, procSetRunning,
      Kernel.procSetStatus, if_true, update_self, Kernel.mk.injEq, and_true]
    funext j
    by_cases hj : j = next
    · subst hj
      simp
    · simp [update_of_ne hj, hne j hj]
  · refine ⟨fun p => { p with status := .running }, rfl, rfl, ?_⟩
    simp only [switchTo, mmuSwitch, currPid, currStatus, hs, Kernel.setProc, procSetRunning,
      Kernel.procSetStatus, if_false, Kernel.mk.injEq, and_true]
    funext j
    by_cases hj : j = next
    · subst hj
      simp
    · simp [update_of_ne hj, hne j hj]

theorem switchTo_spec (hk : k.TableOk) (hrun : ∀ i, (k.procSet i).status ≠ .running) {next : Fin 8}
    (hnext : ProcStatus.schedulable (k.procSet next).status = true) :
    (k.switchTo next).AtUser ∧ SameProcesses k (k.switchTo next) := by
  have h0 : (k.procSet next).pid ≠ 0 := by
    have := hk.pos next (by rintro hs; simp [hs, ProcStatus.schedulable] at hnext)
    omega
  obtain ⟨f, hpid, hstatus, heq⟩ := hk.switchTo_eq h0
  have hok := hk.setProc hpid h0
  have hsame := hk.setProc_same hpid h0 (by
    rw [schedulable_view hnext]
    simp [Process.view, hstatus])
  rw [heq]
  refine ⟨⟨⟨hok.inj, hok.pos, hok.le⟩, fun i => ?_, ?_⟩,
    ⟨hsame.view, hsame.mem, hsame.nprocs, hsame.pid⟩⟩
  · by_cases hi : i = next
    · subst hi
      simp [hstatus]
    · simp [setProc_of_ne k hi, hrun i, hi]
  · simp [currPid, hpid]

/-- What `proc_yield` does when it finds a process that can run. -/
theorem procYield_cases (h : k.procYield = .ok k') :
    ∃ next, k.nextIdx = some next ∧ ProcStatus.schedulable (k.procSet next).status = true ∧
      k' = k.parkCurr.switchTo next := by
  rw [procYield] at h
  cases hn : k.nextIdx with
  | none => simp [hn] at h
  | some next =>
      rw [hn] at h
      exact ⟨next, rfl, by simpa using List.find?_some hn, (Except.ok.inj h).symm⟩

/-- **`proc_yield`** changes no state of a process. -/
theorem procYield_spec (hk : k.TableOk)
    (hrun : ∀ i, (k.procSet i).status = .running → i = k.procCurrIdx) (h : k.procYield = .ok k') :
    k'.AtUser ∧ SameProcesses k k' := by
  obtain ⟨next, -, hnext, rfl⟩ := procYield_cases h
  obtain ⟨hk₁, hsame, hnot, hsched⟩ := parkCurr_spec hk hrun
  obtain ⟨hk₂, hsame'⟩ := switchTo_spec hk₁ hnot (hsched next hnext)
  exact ⟨hk₂, hsame.trans hsame'⟩

/-! ### System calls -/

/-- The slots hold the pid. -/
def Holds (k : Kernel M) (pid : ℤ) : Prop := ∃ i, (k.procSet i).pid = pid

/-- The `struct syscall` of a process that sends, once the kernel has taken note of the call. -/
def sentSc (k : Kernel M) (p : ℤ) : Syscall M :=
  ⟨.unused, { (k.mem p).msg with sender := p }, 0⟩

/-- **The outcomes of a system call** of the process `p`: what the states of the processes and their
`struct syscall` are afterwards. -/
inductive Handled (k : Kernel M) (p : ℤ) : (ℤ → PView) → (ℤ → Syscall M) → Prop
  /-- There is no slot with the pid of the receiver. -/
  | sendFail (hty : (k.mem p).type = .send) (hq : ¬ k.Holds (k.mem p).msg.receiver) :
      Handled k p k.view (update k.mem p { k.sentSc p with retval := -1 })
  /-- The receiver does not wait for a message. -/
  | sendBlock (hty : (k.mem p).type = .send) (hq : k.Holds (k.mem p).msg.receiver)
      (hv : k.view (k.mem p).msg.receiver ≠ .waitRecv) :
      Handled k p (update k.view p (.waitSend (k.mem p).msg.receiver))
        (update k.mem p (k.sentSc p))
  /-- The message is copied to the receiver. -/
  | sendDeliver (hty : (k.mem p).type = .send)
      (hv : k.view (k.mem p).msg.receiver = .waitRecv) :
      Handled k p (update k.view (k.mem p).msg.receiver .run)
        (update (update k.mem p (k.sentSc p)) (k.mem p).msg.receiver
          { k.mem (k.mem p).msg.receiver with msg := (k.sentSc p).msg })
  /-- No process waits to send to this one. -/
  | recvBlock (hty : (k.mem p).type = .recv) (hs : ∀ s, k.view s ≠ .waitSend p) :
      Handled k p (update k.view p .waitRecv)
        (update k.mem p ⟨.unused, (k.mem p).msg, 0⟩)
  /-- The message of the sender that the kernel finds is copied. -/
  | recvDeliver (s : ℤ) (hty : (k.mem p).type = .recv) (hs : k.view s = .waitSend p)
      (hfind : k.findSender = s) :
      Handled k p (update k.view s .run)
        (update k.mem p ⟨.unused, (k.mem s).msg, 0⟩)

/-- The invariant of the table does not depend on the machine. -/
theorem TableOk.congr (h : k.TableOk) (k' : Kernel M) (hp : k'.procSet = k.procSet)
    (hn : k'.procNprocs = k.procNprocs) : k'.TableOk := by
  refine ⟨?_, ?_, ?_⟩
  · rw [hp]
    exact h.inj
  · rw [hp]
    exact h.pos
  · rw [hp, hn]
    exact h.le

theorem view_congr (hp : k'.procSet = k.procSet) : k'.view = k.view := by
  funext pid
  simp only [view, findPid, hp]

/-- What the search for a sender finds. -/
theorem findSender_cases (k : Kernel M) :
    (k.findSender = -1 ∧ ∀ i, (k.procSet i).status = .waitToSend →
        (k.procSet i).receiverPid ≠ k.currPid ∨ (k.procSet i).pid = -1) ∨
      ∃ i, (k.procSet i).status = .waitToSend ∧ (k.procSet i).receiverPid = k.currPid ∧
        (k.procSet i).pid = k.findSender := by
  -- the invariant of the loop, over the slots that have been searched
  have hloop : ∀ l : List (Fin 8), ∀ r : ℤ, r = l.foldl (fun sender i =>
      if (k.procSet i).status = .waitToSend ∧ (k.procSet i).receiverPid = k.currPid then
        (k.procSet i).pid
      else sender) (-1) →
      (r = -1 ∧ ∀ i ∈ l, (k.procSet i).status = .waitToSend →
        (k.procSet i).receiverPid ≠ k.currPid ∨ (k.procSet i).pid = -1) ∨
      ∃ i, (k.procSet i).status = .waitToSend ∧ (k.procSet i).receiverPid = k.currPid ∧
        (k.procSet i).pid = r := by
    intro l
    induction l using List.reverseRecOn with
    | nil => intro r hr; exact Or.inl ⟨hr, by simp⟩
    | append_singleton l j ih =>
        intro r hr
        rw [List.foldl_append, List.foldl_cons, List.foldl_nil] at hr
        by_cases hj : (k.procSet j).status = .waitToSend ∧ (k.procSet j).receiverPid = k.currPid
        · rw [if_pos hj] at hr
          exact Or.inr ⟨j, hj.1, hj.2, hr.symm⟩
        · rw [if_neg hj] at hr
          rcases ih r hr with ⟨hr1, hall⟩ | hex
          · refine Or.inl ⟨hr1, fun i hi hs => ?_⟩
            rcases List.mem_append.1 hi with hi | hi
            · exact hall i hi hs
            · rw [List.mem_singleton.1 hi] at hs ⊢
              exact Or.inl fun hr' => hj ⟨hs, hr'⟩
          · exact Or.inr hex
  rcases hloop (List.finRange 8) k.findSender rfl with ⟨hr, hall⟩ | hex
  · exact Or.inl ⟨hr, fun i => hall i (List.mem_finRange i)⟩
  · exact Or.inr hex

/-- The current process gives up the processor with a new status. -/
theorem AtUser.block (hk : k.AtUser) {f : Process → Process}
    (hpid : (f (k.procSet k.procCurrIdx)).pid = (k.procSet k.procCurrIdx).pid)
    (h : (k.setProc k.procCurrIdx f).procYield = .ok k') :
    k'.AtUser ∧ k'.view = update k.view k.currPid (f (k.procSet k.procCurrIdx)).view ∧
      k'.mem = k.mem ∧ k'.procNprocs = k.procNprocs ∧
      ∀ i, (k'.procSet i).pid = (k.procSet i).pid := by
  have h0 : (k.procSet k.procCurrIdx).pid ≠ 0 := hk.currPid_pos.ne'
  obtain ⟨hk', hsame⟩ := procYield_spec (hk.setProc hpid h0) (fun i hi => by
    by_cases hc : i = k.procCurrIdx
    · exact hc
    · rw [setProc_of_ne k hc] at hi
      exact (hk.running i).1 hi) h
  refine ⟨hk', ?_, hsame.mem, hsame.nprocs, fun i => (hsame.pid i).trans (pid_setProc hpid i)⟩
  rw [hsame.view, hk.view_setProc hpid h0]
  rfl

/-- A waiting process is woken up, and the current one gives up the processor. -/
theorem TableOk.wake (hk : k.TableOk)
    (hrun : ∀ i, (k.procSet i).status = .running ↔ i = k.procCurrIdx)
    {i : Fin 8} (h0 : (k.procSet i).pid ≠ 0)
    (h : (k.procSetRunnable (k.procSet i).pid).procYield = .ok k') :
    k'.AtUser ∧ k'.view = update k.view (k.procSet i).pid .run ∧
      k'.mem = k.mem ∧ k'.procNprocs = k.procNprocs ∧
      ∀ j, (k'.procSet j).pid = (k.procSet j).pid := by
  rw [procSetRunnable, hk.procSetStatus h0] at h
  obtain ⟨hk', hsame⟩ := procYield_spec (hk.setProc rfl h0) (fun j hj => by
    by_cases hc : j = i
    · subst hc
      simp at hj
    · rw [setProc_of_ne k hc] at hj
      exact (hrun j).1 hj) h
  refine ⟨hk', ?_, hsame.mem, hsame.nprocs, fun j => (hsame.pid j).trans (pid_setProc rfl j)⟩
  rw [hsame.view, hk.view_setProc rfl h0]
  rfl

theorem procRecv_spec (hk : k.AtUser) (h : k.procRecv = .ok k') :
    k'.AtUser ∧ k'.procNprocs = k.procNprocs ∧ (∀ i, (k'.procSet i).pid = (k.procSet i).pid) ∧
      (((∀ s, k.view s ≠ .waitSend k.currPid) ∧
          k'.view = update k.view k.currPid .waitRecv ∧ k'.mem = k.mem) ∨
        ∃ s, k.view s = .waitSend k.currPid ∧ k.findSender = s ∧
          k'.view = update k.view s .run ∧
          k'.mem = update k.mem k.currPid
            { k.mem k.currPid with msg := (k.mem s).msg }) := by
  rw [procRecv] at h
  rcases findSender_cases k with ⟨hs, hall⟩ | ⟨i, hst, hrecv, hpid⟩
  · rw [hs, if_pos rfl] at h
    obtain ⟨hk', hview, hmem, hn, hpids⟩ := hk.block rfl h
    refine ⟨hk', hn, hpids, Or.inl ⟨fun s hv => ?_, hview, hmem⟩⟩
    obtain ⟨i, hi, hi0, hvi⟩ := hk.exists_slot (show k.view s ≠ .dead by rw [hv]; simp)
    rw [hv, Process.view] at hvi
    cases hsi : (k.procSet i).status <;> simp [hsi] at hvi
    rcases hall i hsi with hne | hm
    · exact hne hvi
    · have := hk.le i
      omega
  · have hipos := hk.pos i (by simp [hst])
    rw [if_neg (by omega), ← hpid] at h
    have hview : k.view (k.procSet i).pid = .waitSend k.currPid := by
      rw [hk.view_pid hipos.ne', Process.view, hst, hrecv]
    -- copying the message changes the memory only
    have hcopy := (hk.toTableOk.congr (k.copyMsg (k.procSet i).pid k.currPid) rfl rfl).wake
      hk.running hipos.ne' h
    obtain ⟨hk', hv, hmem, hn, hpids⟩ := hcopy
    refine ⟨hk', hn, hpids, Or.inr ⟨(k.procSet i).pid, hview, hpid.symm, hv, hmem⟩⟩

theorem procSendTo_spec (hk : k.AtUser) {q : ℤ} (h : k.procSendTo q = .ok k') :
    k'.AtUser ∧ k'.procNprocs = k.procNprocs ∧ (∀ i, (k'.procSet i).pid = (k.procSet i).pid) ∧
      ((¬ k.Holds q ∧ k'.view = k.view ∧
          k'.mem = update k.mem k.currPid { k.mem k.currPid with retval := -1 }) ∨
        (k.Holds q ∧ k.view q ≠ .waitRecv ∧
          k'.view = update k.view k.currPid (.waitSend q) ∧ k'.mem = k.mem) ∨
        (k.view q = .waitRecv ∧ k'.view = update k.view q .run ∧
          k'.mem = update k.mem q { k.mem q with msg := (k.mem k.currPid).msg })) := by
  rw [procSendTo] at h
  cases hf : k.findPid q with
  | none =>
      rw [hf] at h
      obtain rfl := Except.ok.inj h
      refine ⟨⟨hk.toTableOk.congr _ rfl rfl, hk.running, hk.vm⟩, rfl, fun _ => rfl,
        Or.inl ⟨?_, rfl, ?_⟩⟩
      · rintro ⟨i, hi⟩
        exact findPid_none hf i hi
      · simp only [setSc, Kernel.sc, hk.vm]
  | some i =>
      have hpid := findPid_some hf
      rw [hf] at h
      by_cases hst : (k.procSet i).status = .waitToRecv
      · have hipos := hk.pos i (by simp [hst])
        have hview : k.view q = .waitRecv := by
          rw [← hpid, hk.view_pid hipos.ne', Process.view, hst]
        simp only [hst, ne_eq, not_true_eq_false, if_false] at h
        rw [← hpid] at h
        obtain ⟨hk', hv, hmem, hn, hpids⟩ := (hk.toTableOk.congr
          (k.copyMsg k.currPid (k.procSet i).pid) rfl rfl).wake hk.running hipos.ne' h
        refine ⟨hk', hn, hpids, Or.inr (Or.inr ⟨hview, ?_, ?_⟩)⟩
        · rw [← hpid]
          exact hv
        · rw [← hpid]
          exact hmem
      · simp only [hst, ne_eq, not_false_eq_true, if_true] at h
        obtain ⟨hk', hv, hmem, hn, hpids⟩ := hk.block rfl h
        refine ⟨hk', hn, hpids, Or.inr (Or.inl ⟨⟨i, hpid⟩, ?_, hv, hmem⟩)⟩
        rw [view, hf]
        change (k.procSet i).view ≠ .waitRecv
        rw [Process.view]
        cases hsi : (k.procSet i).status <;> simp [hsi] at hst ⊢

section SetSc

variable (k : Kernel M) (f : Syscall M → Syscall M)

@[simp] theorem currPid_setSc : (k.setSc f).currPid = k.currPid := rfl

@[simp] theorem view_setSc : (k.setSc f).view = k.view := rfl

@[simp] theorem findSender_setSc : (k.setSc f).findSender = k.findSender := rfl

@[simp] theorem holds_setSc (q : ℤ) : (k.setSc f).Holds q ↔ k.Holds q := Iff.rfl

end SetSc

/-- Writing to the `struct syscall` of the current process. -/
theorem AtUser.setSc (hk : k.AtUser) (f : Syscall M → Syscall M) :
    (k.setSc f).AtUser ∧
      (k.setSc f).mem = update k.mem k.currPid (f (k.mem k.currPid)) := by
  refine ⟨⟨hk.toTableOk.congr _ rfl rfl, hk.running, hk.vm⟩, ?_⟩
  simp only [Kernel.setSc, sc, hk.vm]

/-- **A system call** has one of the outcomes of `Egos.Kernel.Handled`. -/
theorem procSyscall_spec (hk : k.AtUser) (h : k.procSyscall = .ok k') :
    k'.AtUser ∧ Handled k k.currPid k'.view k'.mem ∧ k'.procNprocs = k.procNprocs ∧
      ∀ i, (k'.procSet i).pid = (k.procSet i).pid := by
  have hcurr : ∀ q, k.view q ≠ .run → q ≠ k.currPid := by
    rintro q hq rfl
    exact hq hk.view_currPid
  rw [procSyscall, sc, hk.vm] at h
  obtain ⟨hk₁, hmem₁⟩ := hk.setSc fun sc => { sc with retval := 0, type := .unused }
  cases hty : (k.mem k.currPid).type with
  | unused => simp [hty] at h
  | ncalls => simp [hty] at h
  | recv =>
      simp only [hty] at h
      obtain ⟨hk', hn, hpids, hcases⟩ := procRecv_spec hk₁ h
      refine ⟨hk', ?_, hn, hpids⟩
      simp only [currPid_setSc, view_setSc, findSender_setSc, hmem₁, update_idem,
        update_self] at hcases
      rcases hcases with ⟨hnone, hv, hm⟩ | ⟨s, hs, hfind, hv, hm⟩
      · rw [hv, hm]
        exact .recvBlock hty hnone
      · have hne : s ≠ k.currPid := hcurr s (by simp [hs])
        rw [update_of_ne hne] at hm
        rw [hv, hm]
        exact .recvDeliver s hty hs hfind
  | send =>
      simp only [hty] at h
      rw [procSend] at h
      obtain ⟨hk₂, hmem₂⟩ := hk₁.setSc fun sc =>
        { sc with msg := { sc.msg with sender := k.currPid } }
      have hmem : ((k.setSc fun sc => { sc with retval := 0, type := .unused }).setSc fun sc =>
          { sc with msg := { sc.msg with sender := k.currPid } }).mem =
          update k.mem k.currPid (k.sentSc k.currPid) := by
        rw [hmem₂, hmem₁, currPid_setSc, update_idem, update_self]
        rfl
      have hq : ((k.setSc fun sc => { sc with retval := 0, type := .unused }).setSc fun sc =>
          { sc with msg := { sc.msg with sender := k.currPid } }).sc.msg.receiver =
          (k.mem k.currPid).msg.receiver := by
        rw [sc, hmem, hk₂.vm, currPid_setSc, currPid_setSc, update_self]
        rfl
      simp only [currPid_setSc, hq] at h
      obtain ⟨hk', hn, hpids, hcases⟩ := procSendTo_spec hk₂ h
      refine ⟨hk', ?_, hn, hpids⟩
      simp only [currPid_setSc, view_setSc, holds_setSc, hmem, update_idem,
        update_self] at hcases
      rcases hcases with ⟨hno, hv, hm⟩ | ⟨hyes, hne, hv, hm⟩ | ⟨hw, hv, hm⟩
      · rw [hv, hm]
        exact .sendFail hty hno
      · rw [hv, hm]
        exact .sendBlock hty hyes hne
      · have hne := hcurr _ (by rw [hw]; simp)
        rw [update_of_ne hne] at hm
        rw [hv, hm]
        exact .sendDeliver hty hw

/-! ### Traps -/

theorem Handled.congr {k₀ : Kernel M} {p : ℤ} {v : ℤ → PView} {m : ℤ → Syscall M}
    (h : Handled k₀ p v m) (hv : k₀.view = k.view) (hm : k₀.mem = k.mem)
    (hh : ∀ q, k₀.Holds q ↔ k.Holds q) (hf : k₀.findSender = k.findSender) : Handled k p v m := by
  have hsent : k₀.sentSc p = k.sentSc p := by rw [sentSc, hm, sentSc]
  cases h with
  | sendFail hty hq =>
      rw [hm, hh] at hq
      rw [hv, hm, hsent]
      exact .sendFail (hm ▸ hty) hq
  | sendBlock hty hq hne =>
      rw [hm, hh] at hq
      rw [hv, hm] at hne
      rw [hv, hm, hsent]
      exact .sendBlock (hm ▸ hty) hq hne
  | sendDeliver hty hw =>
      rw [hv, hm] at hw
      rw [hv, hm, hsent]
      exact .sendDeliver (hm ▸ hty) hw
  | recvBlock hty hs =>
      rw [hv] at hs
      rw [hv, hm]
      exact .recvBlock (hm ▸ hty) hs
  | recvDeliver s hty hs hfind =>
      rw [hv] at hs
      rw [hv, hm]
      exact .recvDeliver s (hm ▸ hty) hs (hf ▸ hfind)

/-- Saving the context of the current process. -/
theorem AtUser.save (hk : k.AtUser) {k₀ : Kernel M}
    (h₀ : k₀ = k.setProc k.procCurrIdx fun p =>
      { p with mepc := k.mepc, savedRegister := k.registers }) :
    k₀.AtUser ∧ SameProcesses k k₀ ∧ k₀.currPid = k.currPid ∧ k₀.findSender = k.findSender := by
  subst h₀
  have h0 : (k.procSet k.procCurrIdx).pid ≠ 0 := hk.currPid_pos.ne'
  have hpid := pid_setProc (k := k) (i := k.procCurrIdx)
    (f := fun p => { p with mepc := k.mepc, savedRegister := k.registers }) rfl
  have hstatus : ∀ i, ((k.setProc k.procCurrIdx fun p =>
      { p with mepc := k.mepc, savedRegister := k.registers }).procSet i).status =
        (k.procSet i).status ∧ ((k.setProc k.procCurrIdx fun p =>
      { p with mepc := k.mepc, savedRegister := k.registers }).procSet i).receiverPid =
        (k.procSet i).receiverPid := by
    intro i
    by_cases hi : i = k.procCurrIdx
    · subst hi
      simp
    · simp [setProc_of_ne k hi]
  refine ⟨⟨hk.setProc rfl h0, fun i => ?_, ?_⟩, hk.setProc_same rfl h0 rfl, hpid _, ?_⟩
  · rw [(hstatus i).1]
    exact hk.running i
  · exact hk.vm.trans (hpid _).symm
  · simp only [findSender, hpid, hstatus, currPid]
    rfl

/-- **A software interrupt** handles the system call of the current process, unless ctrl+c was
pressed while a user process runs. -/
theorem kernelEntry_soft {tty : Bool} (hk : k.AtUser) (h : k.kernelEntry .soft tty = .ok k') :
    k'.AtUser ∧ k'.procNprocs = k.procNprocs ∧ (∀ i, (k'.procSet i).pid = (k.procSet i).pid) ∧
      if tty = true ∧ k.currPid ≥ GPID_USER_START then
        k'.view = k.view ∧ k'.mem = k.mem ∧ k'.currPid = k.currPid
      else Handled k k.currPid k'.view k'.mem := by
  rw [kernelEntry] at h
  obtain ⟨hk₀, hsame, hcurr, hfind⟩ := hk.save rfl
  generalize hk0 : (k.setProc k.procCurrIdx fun p =>
    { p with mepc := k.mepc, savedRegister := k.registers }) = k₀ at *
  cases hi : k₀.intrEntry .soft tty with
  | error e => simp [hi, bind, Except.bind] at h
  | ok k₁ =>
      simp only [hi, bind, Except.bind, pure, Except.pure, Except.ok.injEq] at h
      subst h
      rw [intrEntry, if_neg (by simp), hcurr] at hi
      by_cases hc : tty = true ∧ k.currPid ≥ GPID_USER_START
      · rw [if_pos hc] at hi
        obtain rfl := Except.ok.inj hi
        rw [if_pos hc]
        exact ⟨⟨hk₀.toTableOk.congr _ rfl rfl, hk₀.running, hk₀.vm⟩, hsame.nprocs, hsame.pid,
          hsame.view, hsame.mem, hcurr⟩
      · rw [if_neg hc] at hi ⊢
        obtain ⟨hk₁, hh, hn, hp⟩ := procSyscall_spec hk₀ hi
        rw [hcurr] at hh
        refine ⟨⟨hk₁.toTableOk.congr _ rfl rfl, hk₁.running, hk₁.vm⟩, hn.trans hsame.nprocs,
          fun i => (hp i).trans (hsame.pid i), hh.congr hsame.view hsame.mem ?_ hfind⟩
        simp only [Holds, hsame.pid, implies_true]

/-- **A timer interrupt** changes no state of a process. -/
theorem kernelEntry_timer {tty : Bool} (hk : k.AtUser) (h : k.kernelEntry .timer tty = .ok k') :
    k'.AtUser ∧ SameProcesses k k' := by
  rw [kernelEntry] at h
  obtain ⟨hk₀, hsame, hcurr, -⟩ := hk.save rfl
  generalize hk0 : (k.setProc k.procCurrIdx fun p =>
    { p with mepc := k.mepc, savedRegister := k.registers }) = k₀ at *
  cases hi : k₀.intrEntry .timer tty with
  | error e => simp [hi, bind, Except.bind] at h
  | ok k₁ =>
      simp only [hi, bind, Except.bind, pure, Except.pure, Except.ok.injEq] at h
      subst h
      have hk₁ : k₁.AtUser ∧ SameProcesses k k₁ := by
        rw [intrEntry] at hi
        split at hi
        · obtain rfl := Except.ok.inj hi
          exact ⟨hk₀, hsame⟩
        · split at hi
          · obtain rfl := Except.ok.inj hi
            exact ⟨⟨hk₀.toTableOk.congr _ rfl rfl, hk₀.running, hk₀.vm⟩,
              hsame.view, hsame.mem, hsame.nprocs, hsame.pid⟩
          · obtain ⟨hk', hsame'⟩ := procYield_spec hk₀.toTableOk (fun i => (hk₀.running i).1) hi
            exact ⟨hk', hsame.trans hsame'⟩
      exact ⟨⟨hk₁.1.toTableOk.congr _ rfl rfl, hk₁.1.running, hk₁.1.vm⟩,
        hk₁.2.view, hk₁.2.mem, hk₁.2.nprocs, hk₁.2.pid⟩

/-! ### Creating and freeing processes -/

theorem boot_atUser (mem : ℤ → Syscall M) (registers : Fin 29 → UInt32) :
    (boot mem registers).AtUser := by
  have hproc : ∀ i : Fin 8, i ≠ 0 → (boot mem registers).procSet i =
      ⟨0, .unused, 0, fun _ => 0, 0⟩ := fun i hi => by simp [boot, hi]
  have hzero : (boot mem registers).procSet 0 = ⟨GPID_PROCESS, .running, 0, fun _ => 0, 0⟩ := by
    simp [boot]
  refine ⟨⟨fun i j hij hi0 => ?_, fun i hi => ?_, fun i => ?_⟩, fun i => ?_, ?_⟩
  · by_cases hi : i = 0
    · by_cases hj : j = 0
      · rw [hi, hj]
      · rw [hi, hzero, hproc j hj] at hij
        exact absurd hij (by decide)
    · rw [hproc i hi] at hi0
      exact absurd rfl hi0
  · by_cases h : i = 0
    · rw [h, hzero]
      decide
    · rw [hproc i h] at hi
      exact absurd rfl hi
  · by_cases h : i = 0
    · rw [h, hzero]
      exact ⟨by decide, le_refl _⟩
    · rw [hproc i h]
      exact ⟨by decide, Int.natCast_nonneg _⟩
  · by_cases h : i = 0
    · rw [h, hzero]
      exact ⟨fun _ => rfl, fun _ => rfl⟩
    · rw [hproc i h]
      exact ⟨fun he => absurd he (by decide), fun he => absurd he h⟩
  · exact (congrArg Process.pid hzero).symm

/-- **`proc_alloc`** creates a process with a new pid. -/
theorem procAlloc_spec {pid : ℤ} (hk : k.AtUser) (hn : k.procNprocs + 1 < 2 ^ 31)
    (h : k.procAlloc = .ok (pid, k')) :
    k'.AtUser ∧ pid = k.procNprocs + 1 ∧ k'.procNprocs = k.procNprocs + 1 ∧
      k.view pid = .dead ∧ k'.view = update k.view pid .loading ∧ k'.mem = k.mem ∧
      k'.currPid = k.currPid := by
  cases hu : k.findUnused with
  | none => simp [procAlloc, hu] at h
  | some i =>
      have hst : (k.procSet i).status = .unused := by
        simpa [findUnused] using List.find?_some hu
      have hic : k.procCurrIdx ≠ i := by
        rintro rfl
        rw [(hk.running _).2 rfl] at hst
        simp at hst
      rw [procAlloc_eq hu hn, Except.ok.injEq, Prod.mk.injEq] at h
      obtain ⟨rfl, rfl⟩ := h
      -- the new pid is the largest
      have hnew : ∀ j, (k.procSet j).pid ≠ (k.procNprocs + 1 : ℕ) := fun j he => by
        have := (hk.le j).2
        omega
      have hdead : k.view (k.procNprocs + 1 : ℕ) = .dead :=
        view_eq_dead fun j hj => absurd hj (hnew j)
      generalize hk1 : ({ k.setProc i (fun p =>
        { p with pid := (k.procNprocs + 1 : ℕ), status := .loading }) with
          procNprocs := k.procNprocs + 1 } : Kernel M) = k₁
      have hi : k₁.procSet i =
          { k.procSet i with pid := (k.procNprocs + 1 : ℕ), status := .loading } := by
        rw [← hk1]
        simp [setProc]
      have hj : ∀ j, j ≠ i → k₁.procSet j = k.procSet j := by
        intro j hj
        rw [← hk1]
        simp [setProc, hj]
      have hn₁ : k₁.procNprocs = k.procNprocs + 1 := by rw [← hk1]
      have hidx : k₁.procCurrIdx = k.procCurrIdx := by rw [← hk1]; rfl
      have hcurr : k₁.currPid = k.currPid := by rw [currPid, hidx, hj _ hic, currPid]
      have hok : k₁.TableOk := by
        refine ⟨fun a b hab ha0 => ?_, fun a ha => ?_, fun a => ?_⟩
        · by_cases ha : a = i
          · by_cases hb : b = i
            · rw [ha, hb]
            · rw [ha, hi, hj b hb] at hab
              exact absurd hab.symm (hnew b)
          · by_cases hb : b = i
            · rw [hb, hi, hj a ha] at hab
              exact absurd hab (hnew a)
            · rw [hj a ha] at hab ha0
              rw [hj b hb] at hab
              exact hk.inj a b hab ha0
        · by_cases hai : a = i
          · rw [hai, hi]
            exact Int.natCast_pos.2 (Nat.succ_pos _)
          · rw [hj a hai] at ha ⊢
            exact hk.pos a ha
        · rw [hn₁]
          by_cases hai : a = i
          · rw [hai, hi]
            exact ⟨Int.natCast_nonneg _, le_refl _⟩
          · rw [hj a hai]
            have := hk.le a
            exact ⟨this.1, by omega⟩
      refine ⟨⟨hok, fun a => ?_, ?_⟩, by simp, hn₁, hdead, ?_, ?_, hcurr⟩
      · rw [hidx]
        by_cases hai : a = i
        · rw [hai, hi]
          exact ⟨fun he => absurd he (by simp), fun he => absurd he.symm hic⟩
        · rw [hj a hai]
          exact hk.running a
      · rw [hcurr, ← hk.vm, ← hk1]
        rfl
      · funext p
        by_cases hp : p = (k.procNprocs + 1 : ℕ)
        · subst hp
          have hpid : (k₁.procSet i).pid = (k.procNprocs + 1 : ℕ) := by rw [hi]
          rw [update_self, ← hpid, hok.view_pid (by rw [hpid]; omega), hi]
          rfl
        · rw [update_of_ne hp]
          refine hk.view_eq_of hok (fun a ha hlive => ?_) fun a ha hlive => ?_
          · have hai : a ≠ i := by
              rintro rfl
              simp [Process.view, hst] at hlive
            rw [hj a hai]
            exact ⟨ha, rfl⟩
          · have hai : a ≠ i := by
              rintro rfl
              rw [hi] at ha
              exact hp ha.symm
            rw [hj a hai] at ha hlive
            exact ⟨ha, hlive⟩
      · rw [← hk1]
        rfl

/-- A process that is not the current one gets another status. -/
theorem AtUser.setProc_of_ne_curr (hk : k.AtUser) {f : Process → Process} {i : Fin 8}
    (hic : k.procCurrIdx ≠ i) (h0 : (k.procSet i).pid ≠ 0)
    (hpid : (f (k.procSet i)).pid = (k.procSet i).pid)
    (hf : (f (k.procSet i)).status ≠ .running) : (k.setProc i f).AtUser := by
  refine ⟨hk.setProc hpid h0, fun j => ?_, hk.vm.trans (pid_setProc hpid _).symm⟩
  change ((k.setProc i f).procSet j).status = .running ↔ j = k.procCurrIdx
  by_cases hj : j = i
  · rw [hj, setProc_self]
    exact ⟨fun he => absurd he hf, fun he => absurd he.symm hic⟩
  · rw [setProc_of_ne k hj]
    exact hk.running j

/-- **`proc_set_ready`** lets a loaded process run. -/
theorem procSetReady_spec {pid : ℤ} (hk : k.AtUser) (hv : k.view pid = .loading) :
    (k.procSetReady pid).AtUser ∧
      (k.procSetReady pid).view = update k.view pid .run := by
  obtain ⟨i, rfl, h0, hvi⟩ := hk.exists_slot (show k.view pid ≠ .dead by rw [hv]; simp)
  have hic : k.procCurrIdx ≠ i := by
    rintro rfl
    have := hk.view_currPid
    rw [currPid, hv] at this
    simp at this
  rw [procSetReady, hk.procSetStatus h0]
  exact ⟨hk.setProc_of_ne_curr hic h0 rfl (by simp), hk.view_setProc rfl h0⟩

/-- The slots of the pids in a set are no longer in use. -/
def freed (k : Kernel M) (gone : ℤ → Prop) [DecidablePred gone] : Kernel M :=
  { k with procSet := fun i =>
      if gone (k.procSet i).pid then { k.procSet i with status := .unused } else k.procSet i }

theorem AtUser.freed (hk : k.AtUser) {gone : ℤ → Prop} [DecidablePred gone]
    (hcurr : ¬ gone k.currPid) :
    (k.freed gone).AtUser ∧ (k.freed gone).view = fun p => if gone p then .dead else k.view p := by
  have hin : ∀ i, gone (k.procSet i).pid →
      (k.freed gone).procSet i = { k.procSet i with status := .unused } := fun i hi => if_pos hi
  have hout : ∀ i, ¬ gone (k.procSet i).pid → (k.freed gone).procSet i = k.procSet i :=
    fun i hi => if_neg hi
  have hpid : ∀ i, ((k.freed gone).procSet i).pid = (k.procSet i).pid := by
    intro i
    by_cases hi : gone (k.procSet i).pid
    · rw [hin i hi]
    · rw [hout i hi]
  have hok : (k.freed gone).TableOk := by
    refine ⟨fun i j hij h0 => ?_, fun i hi => ?_, fun i => ?_⟩
    · rw [hpid] at hij h0
      rw [hpid] at hij
      exact hk.inj i j hij h0
    · rw [hpid]
      by_cases hS : gone (k.procSet i).pid
      · rw [hin i hS] at hi
        exact absurd rfl hi
      · rw [hout i hS] at hi
        exact hk.pos i hi
    · rw [hpid]
      exact hk.le i
  refine ⟨⟨hok, fun i => ?_, hk.vm.trans (hpid _).symm⟩, funext fun p => ?_⟩
  · change ((k.freed gone).procSet i).status = .running ↔ i = k.procCurrIdx
    by_cases hS : gone (k.procSet i).pid
    · rw [hin i hS]
      refine ⟨fun he => absurd he (by simp), ?_⟩
      rintro rfl
      exact absurd hS hcurr
    · rw [hout i hS]
      exact hk.running i
  · by_cases hp : gone p
    · rw [if_pos hp]
      refine view_eq_dead fun i hi => ?_
      rw [hpid] at hi
      rw [hin i (hi ▸ hp)]
      rfl
    · rw [if_neg hp]
      refine hk.view_eq_of hok (fun i hi _ => ?_) fun i hi hlive => ?_
      · rw [hout i (hi ▸ hp)]
        exact ⟨hi, rfl⟩
      · rw [hpid] at hi
        rw [hout i (hi ▸ hp)] at hlive
        exact ⟨hi, hlive⟩

theorem procFree_eq (k : Kernel M) (pid : ℤ) :
    k.procFree pid = k.freed fun p => if pid = -1 then p ≥ GPID_USER_START else p = pid := by
  rw [procFree]
  by_cases hp : pid = -1
  · simp only [hp, ne_eq, not_true_eq_false, if_false, if_true, Kernel.freed]
    congr 1
    funext i
    by_cases hs : (k.procSet i).status = .unused
    · rw [if_neg (fun h => h.2 hs)]
      split
      · rw [← hs]
      · rfl
    · simp [hs]
  · simp only [hp, ne_eq, not_false_eq_true, if_true, if_false, Kernel.freed, Kernel.procSetStatus]

/-- **`proc_free`** ends one process, or all user applications. -/
theorem procFree_spec (hk : k.AtUser) (pid : ℤ)
    (hcurr : if pid = -1 then k.currPid < GPID_USER_START else pid ≠ k.currPid) :
    (k.procFree pid).AtUser ∧ (k.procFree pid).view = fun p =>
      if (if pid = -1 then p ≥ GPID_USER_START else p = pid) then .dead else k.view p := by
  rw [procFree_eq]
  refine hk.freed fun h => ?_
  by_cases hp : pid = -1
  · simp only [hp, if_true] at hcurr h
    omega
  · simp only [hp, if_false] at hcurr h
    exact hcurr h.symm

end Kernel

end Egos
