/-
**Straight-line RISC-V code.**

The registers of a 32-bit hart, the control and status registers that a trap handler uses, and a
memory of bytes.  A list of instructions without jumps is run from left to right.  The lemmas are
about code that stores a list of registers into consecutive words, and code that loads them from
there.

Main definitions:

* `Riscv.Hart`, `Riscv.Instr.exec`, `Riscv.run` — the machine and its instructions;
* `Riscv.loadWord`, `Riscv.storeWord` — little-endian words;
* `Riscv.stores`, `Riscv.loads` — a list of registers, stored and loaded;
* `Riscv.li` — a constant, in two instructions.

Main results:

* `Riscv.loadWord_storeWord`, `Riscv.loadWord_storeWord_of_ne` — a word that was stored;
* `Riscv.loadWord_storeWords` — consecutive words;
* `Riscv.run_stores`, `Riscv.run_loads` — **what storing and loading a list of registers does**;
* `Riscv.run_li` — the two instructions leave the constant.
-/

import Mathlib.Data.List.OfFn
import Mathlib.Tactic.Ring
import Mathlib.Logic.Function.Basic

set_option autoImplicit false

namespace Riscv

open Function (update update_apply update_idem update_of_ne update_self)

/-! ### Words in memory -/

/-- The little-endian word at an address. -/
def loadWord (m : UInt32 → UInt8) (a : UInt32) : UInt32 :=
  .ofNat ((m a).toNat + 256 * (m (a + 1)).toNat + 65536 * (m (a + 2)).toNat +
    16777216 * (m (a + 3)).toNat)

/-- Store a word at an address. -/
def storeWord (m : UInt32 → UInt8) (a v : UInt32) : UInt32 → UInt8 := fun b =>
  if (b - a).toNat < 4 then .ofNat (v.toNat / 256 ^ (b - a).toNat) else m b

/-- The address of the word `i` of an array. -/
def wordAddr (a : UInt32) (i : ℕ) : UInt32 := a + .ofNat (4 * i)

/-- Consecutive words. -/
def storeWords (m : UInt32 → UInt8) (a : UInt32) (i : ℕ) : List UInt32 → UInt32 → UInt8
  | [] => m
  | v :: vs => storeWords (storeWord m (wordAddr a i) v) a (i + 1) vs

theorem loadWord_storeWord (m : UInt32 → UInt8) (a v : UInt32) :
    loadWord (storeWord m a v) a = v := by
  have hbyte : ∀ i : UInt32, i.toNat < 4 →
      (storeWord m a v (a + i)).toNat = v.toNat / 256 ^ i.toNat % 256 := by
    intro i hi
    have hsub : a + i - a = i := by
      rw [UInt32.add_comm, UInt32.add_sub_cancel]
    rw [storeWord, hsub, if_pos hi]
    rfl
  have h0 := hbyte 0 (by decide)
  rw [UInt32.add_zero] at h0
  rw [loadWord, h0, hbyte 1 (by decide), hbyte 2 (by decide), hbyte 3 (by decide)]
  have hv := v.toNat_lt
  apply UInt32.toNat_inj.1
  rw [UInt32.toNat_ofNat']
  simp only [show (0 : UInt32).toNat = 0 from rfl, show (1 : UInt32).toNat = 1 from rfl,
    show (2 : UInt32).toNat = 2 from rfl, show (3 : UInt32).toNat = 3 from rfl]
  omega

/-- A word that does not overlap the one that is stored. -/
theorem loadWord_storeWord_of_disjoint (m : UInt32 → UInt8) {a b : UInt32} (v : UInt32)
    (h : 4 ≤ (b - a).toNat) (h' : (b - a).toNat + 4 ≤ 2 ^ 32) :
    loadWord (storeWord m a v) b = loadWord m b := by
  have hbyte : ∀ i : UInt32, i.toNat < 4 → storeWord m a v (b + i) = m (b + i) := by
    intro i hi
    refine if_neg ?_
    have ha := a.toNat_lt
    simp only [UInt32.toNat_sub, UInt32.toNat_add] at h h' ⊢
    omega
  have h0 := hbyte 0 (by decide)
  rw [UInt32.add_zero] at h0
  rw [loadWord, h0, hbyte 1 (by decide), hbyte 2 (by decide), hbyte 3 (by decide), loadWord]

theorem loadWord_storeWord_of_ne (m : UInt32 → UInt8) (a v : UInt32) {i j : ℕ} (h : i ≠ j)
    (hi : i < 2 ^ 30) (hj : j < 2 ^ 30) :
    loadWord (storeWord m (wordAddr a i) v) (wordAddr a j) = loadWord m (wordAddr a j) := by
  have hsub : (wordAddr a j - wordAddr a i).toNat = (2 ^ 32 - 4 * i + 4 * j) % 2 ^ 32 := by
    have ha := a.toNat_lt
    simp only [wordAddr, UInt32.toNat_sub, UInt32.toNat_add, UInt32.toNat_ofNat']
    omega
  refine loadWord_storeWord_of_disjoint m v ?_ ?_ <;> rw [hsub] <;> omega

/-- The words before an array that is stored. -/
theorem loadWord_storeWords_of_lt (a : UInt32) {j : ℕ} :
    ∀ (vs : List UInt32) (m : UInt32 → UInt8) (i : ℕ), j < i → i + vs.length ≤ 2 ^ 30 →
      loadWord (storeWords m a i vs) (wordAddr a j) = loadWord m (wordAddr a j) := by
  intro vs
  induction vs with
  | nil => exact fun _ _ _ _ => rfl
  | cons v vs ih =>
      intro m i hj hi
      rw [List.length_cons] at hi
      rw [storeWords, ih _ _ (by omega) (by omega),
        loadWord_storeWord_of_ne _ _ _ (by omega) (by omega) (by omega)]

/-- **An array that was stored is there.** -/
theorem loadWord_storeWords (a : UInt32) :
    ∀ (vs : List UInt32) (m : UInt32 → UInt8) (i : ℕ), i + vs.length ≤ 2 ^ 30 →
      ∀ (j : ℕ) (hj : j < vs.length),
        loadWord (storeWords m a i vs) (wordAddr a (i + j)) = vs[j] := by
  intro vs
  induction vs with
  | nil => exact fun _ _ _ j hj => absurd hj (Nat.not_lt_zero j)
  | cons v vs ih =>
      intro m i hi j hj
      rw [List.length_cons] at hi hj
      cases j with
      | zero =>
          change loadWord (storeWords _ a (i + 1) vs) (wordAddr a i) = v
          rw [loadWord_storeWords_of_lt a vs _ (i + 1) (Nat.lt_succ_self i) (by omega)]
          exact loadWord_storeWord _ _ _
      | succ j =>
          rw [storeWords, show i + (j + 1) = i + 1 + j by omega]
          exact ih _ _ (by omega) j (by omega)

/-! ### Harts -/

/-- The general registers. -/
inductive Reg
  | zero | ra | sp | gp | tp | t0 | t1 | t2 | s0 | s1 | a0 | a1 | a2 | a3 | a4 | a5 | a6 | a7
  | s2 | s3 | s4 | s5 | s6 | s7 | s8 | s9 | s10 | s11 | t3 | t4 | t5 | t6
  deriving DecidableEq

/-- The control and status registers of a trap. -/
inductive Csr
  | mstatus | mtvec | mscratch | mepc | mcause
  deriving DecidableEq

/-- A hart, with its memory. -/
structure Hart where
  x : Reg → UInt32
  csr : Csr → UInt32
  mem : UInt32 → UInt8
  pc : UInt32

namespace Hart

variable (h : Hart)

/-- Read a register, of which `zero` is always 0. -/
def get (r : Reg) : UInt32 := if r = .zero then 0 else h.x r

/-- Write a register. -/
def set (r : Reg) (v : UInt32) : Hart := { h with x := update h.x r v }

/-- Write a control and status register. -/
def setCsr (c : Csr) (v : UInt32) : Hart := { h with csr := update h.csr c v }

@[simp] theorem get_set_self {r : Reg} (hr : r ≠ .zero) (v : UInt32) : (h.set r v).get r = v := by
  rw [get, if_neg hr]
  exact update_self _ _ _

@[simp] theorem get_set_of_ne {r r' : Reg} (hr : r' ≠ r) (v : UInt32) :
    (h.set r v).get r' = h.get r' := by
  simp only [get, set, update_of_ne hr]

@[simp] theorem get_setCsr (c : Csr) (v : UInt32) (r : Reg) : (h.setCsr c v).get r = h.get r := rfl

@[simp] theorem set_mem (r : Reg) (v : UInt32) : (h.set r v).mem = h.mem := rfl

@[simp] theorem set_csr (r : Reg) (v : UInt32) : (h.set r v).csr = h.csr := rfl

@[simp] theorem setCsr_mem (c : Csr) (v : UInt32) : (h.setCsr c v).mem = h.mem := rfl

@[simp] theorem csr_setCsr (c c' : Csr) (v : UInt32) :
    (h.setCsr c v).csr c' = if c' = c then v else h.csr c' := by
  exact update_apply _ _ _ _

end Hart

/-! ### Instructions -/

/-- The instructions of straight-line code. -/
inductive Instr
  | lui (rd : Reg) (imm : BitVec 20)
  | addi (rd rs : Reg) (imm : BitVec 12)
  | lw (rd : Reg) (offset : BitVec 12) (base : Reg)
  | sw (rs : Reg) (offset : BitVec 12) (base : Reg)
  | csrw (c : Csr) (rs : Reg)
  | csrr (rd : Reg) (c : Csr)
  /-- Set the bits of the register. -/
  | csrs (c : Csr) (rs : Reg)

/-- An immediate of 12 bits is signed. -/
def sext (imm : BitVec 12) : UInt32 := ⟨imm.signExtend 32⟩

/-- One instruction. -/
def Instr.exec (h : Hart) : Instr → Hart
  | .lui rd imm => h.set rd (.ofNat (4096 * imm.toNat))
  | .addi rd rs imm => h.set rd (h.get rs + sext imm)
  | .lw rd offset base => h.set rd (loadWord h.mem (h.get base + sext offset))
  | .sw rs offset base => { h with mem := storeWord h.mem (h.get base + sext offset) (h.get rs) }
  | .csrw c rs => h.setCsr c (h.get rs)
  | .csrr rd c => h.set rd (h.csr c)
  | .csrs c rs => h.setCsr c (h.csr c ||| h.get rs)

/-- Straight-line code. -/
def run (code : List Instr) (h : Hart) : Hart := code.foldl Instr.exec h

@[simp] theorem run_nil (h : Hart) : run [] h = h := rfl

@[simp] theorem run_cons (i : Instr) (code : List Instr) (h : Hart) :
    run (i :: code) h = run code (i.exec h) := rfl

@[simp] theorem run_append (code code' : List Instr) (h : Hart) :
    run (code ++ code') h = run code' (run code h) := List.foldl_append

theorem toNat_sext (imm : BitVec 12) :
    (sext imm).toNat = if imm.toNat < 2048 then imm.toNat else imm.toNat + (2 ^ 32 - 4096) := by
  change (imm.signExtend 32).toNat = _
  have hlt := imm.isLt
  rw [BitVec.toNat_signExtend, BitVec.msb_eq_decide, BitVec.toNat_setWidth]
  by_cases h : imm.toNat < 2048
  · rw [if_pos h, if_neg (by simpa using h)]
    omega
  · rw [if_neg h, if_pos (by simpa using h)]
    omega

/-- The offset of a word. -/
theorem add_sext_ofNat (a : UInt32) {i : ℕ} (hi : i < 512) :
    a + sext (.ofNat 12 (4 * i)) = wordAddr a i := by
  rw [wordAddr]
  congr 1
  apply UInt32.toNat_inj.1
  rw [toNat_sext, BitVec.toNat_ofNat, UInt32.toNat_ofNat']
  rw [if_pos (by omega)]
  omega

/-- A constant is loaded in two halves, the lower one of which is signed. -/
def li (rd : Reg) (v : UInt32) : List Instr :=
  [.lui rd (.ofNat 20 ((v.toNat + 2048) / 4096)), .addi rd rd (.ofNat 12 v.toNat)]

theorem run_li (rd : Reg) (v : UInt32) (hrd : rd ≠ .zero) (h : Hart) :
    run (li rd v) h = h.set rd v := by
  have hv := v.toNat_lt
  have hsum : UInt32.ofNat (4096 * (BitVec.ofNat 20 ((v.toNat + 2048) / 4096)).toNat) +
      sext (.ofNat 12 v.toNat) = v := by
    apply UInt32.toNat_inj.1
    rw [UInt32.toNat_add, UInt32.toNat_ofNat', toNat_sext, BitVec.toNat_ofNat, BitVec.toNat_ofNat]
    split <;> omega
  simp only [li, run_cons, run_nil, Instr.exec, Hart.get_set_self _ hrd, hsum]
  simp only [Hart.set, update_idem]

/-! ### Lists of registers -/

/-- Store registers into consecutive words, from the word `i` on. -/
def stores (base : Reg) (i : ℕ) : List Reg → List Instr
  | [] => []
  | r :: rs => .sw r (.ofNat 12 (4 * i)) base :: stores base (i + 1) rs

/-- Load registers from consecutive words, from the word `i` on. -/
def loads (base : Reg) (i : ℕ) : List Reg → List Instr
  | [] => []
  | r :: rs => .lw r (.ofNat 12 (4 * i)) base :: loads base (i + 1) rs

/-- **Storing registers** changes the memory only. -/
theorem run_stores (base : Reg) :
    ∀ (rs : List Reg) (i : ℕ) (h : Hart), i + rs.length ≤ 512 →
      run (stores base i rs) h =
        { h with mem := storeWords h.mem (h.get base) i (rs.map h.get) } := by
  intro rs
  induction rs with
  | nil => exact fun _ _ _ => rfl
  | cons r rs ih =>
      intro i h hi
      rw [List.length_cons] at hi
      rw [stores, run_cons, ih _ _ (by omega), Instr.exec, add_sext_ofNat _ (by omega)]
      rfl

/-- **Loading registers** keeps the memory, and the registers that are not in the list. -/
theorem run_loads (base : Reg) :
    ∀ (rs : List Reg) (i : ℕ) (h : Hart), i + rs.length ≤ 512 → rs.Nodup → base ∉ rs →
      Reg.zero ∉ rs →
        ((run (loads base i rs) h).mem = h.mem ∧ (run (loads base i rs) h).csr = h.csr ∧
          (run (loads base i rs) h).pc = h.pc) ∧
        (∀ r, r ∉ rs → (run (loads base i rs) h).get r = h.get r) ∧
        ∀ (j : ℕ) (hj : j < rs.length),
          (run (loads base i rs) h).get rs[j] = loadWord h.mem (wordAddr (h.get base) (i + j)) := by
  intro rs
  induction rs with
  | nil => exact fun _ _ _ _ _ _ => ⟨⟨rfl, rfl, rfl⟩, fun _ _ => rfl, fun j hj =>
      absurd hj (Nat.not_lt_zero j)⟩
  | cons r rs ih =>
      intro i h hi hnodup hbase hzero
      rw [List.length_cons] at hi
      obtain ⟨hr, hnodup⟩ := List.nodup_cons.1 hnodup
      rw [List.mem_cons, not_or] at hbase hzero
      rw [loads, run_cons, Instr.exec, add_sext_ofNat _ (by omega)]
      obtain ⟨hsame, hother, hword⟩ :=
        ih (i + 1) (h.set r (loadWord h.mem (wordAddr (h.get base) i))) (by omega) hnodup hbase.2
          hzero.2
      refine ⟨hsame, ?_, ?_⟩
      · intro r' hr'
        rw [List.mem_cons, not_or] at hr'
        rw [hother r' hr'.2, Hart.get_set_of_ne _ hr'.1]
      · intro j hj
        cases j with
        | zero =>
            -- the other loads keep the first register
            rw [List.getElem_cons_zero, hother r hr, Hart.get_set_self _ (Ne.symm hzero.1),
              Nat.add_zero]
        | succ j =>
            rw [List.getElem_cons_succ, hword j (by simpa using hj), Hart.set_mem,
              Hart.get_set_of_ne _ hbase.1, show i + 1 + j = i + (j + 1) by omega]

end Riscv
