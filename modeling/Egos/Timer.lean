/-
**The timer** (`earth/cpu_timer.c`).

The counter `mtime` and the compare register `mtimecmp` have 64 bits, and are read and written 32
bits at a time.  The counter goes on between two reads of its halves, and an interrupt is pending
whenever it is not less than the compare register, also between two writes of the halves of that
register.

A moment is the number of register accesses that came before it.  The counter is given by its value
at every moment, and the compare register by its value at every moment so far, which is also the one
that it keeps if it is not written again.

Main definitions:

* `Egos.Counter` — the values of `mtime`;
* `Egos.Timer` — the timer, with the values of `mtimecmp`;
* `Egos.mtimeGet`, `Egos.mtimecmpSet`, `Egos.timerReset` — the code;
* `Egos.Timer.Pending` — an interrupt is pending.

Main results:

* `Egos.mtimeGet_eq` — the value read is one that the counter had;
* `Egos.exists_mtimeGet` — the loop ends;
* `Egos.mtimecmpSet_between`, `Egos.mtimecmpSet_after` — the values of the compare register;
* `Egos.timer_consistent` — **the timer is read and set consistently**.
-/

import Mathlib.Data.Nat.Bitwise
import Mathlib.Order.Monotone.Basic

set_option autoImplicit false

namespace Egos

/-! ### The registers -/

/-- The value of `mtime` at every moment: it does not go back, and does not come near its end. -/
structure Counter where
  mtime : ℕ → ℕ
  mono : Monotone mtime
  bound : ∀ n, mtime n < 2 ^ 63

/-- The timer of a hart. -/
structure Timer where
  /-- The number of register accesses so far. -/
  now : ℕ
  /-- The value of `mtimecmp` at every moment. -/
  mtimecmp : ℕ → ℕ

/-- An interrupt is pending. -/
def Timer.Pending (t : Timer) (c : Counter) (n : ℕ) : Prop := t.mtimecmp n ≤ c.mtime n

/-- `REGW(0x200BFF8, 4)` -/
def readHigh (c : Counter) (t : Timer) : ℕ × Timer :=
  (c.mtime t.now / 2 ^ 32, { t with now := t.now + 1 })

/-- `REGW(0x200BFF8, 0)` -/
def readLow (c : Counter) (t : Timer) : ℕ × Timer :=
  (c.mtime t.now % 2 ^ 32, { t with now := t.now + 1 })

/-- The value of the compare register from now on. -/
def Timer.store (t : Timer) (v : ℕ) : Timer where
  now := t.now + 1
  mtimecmp := fun n => if t.now < n then v else t.mtimecmp n

/-- `REGW(0x2004000, mhartid * 8 + 4) = v` -/
def writeHigh (v : ℕ) (t : Timer) : Timer := t.store (v * 2 ^ 32 + t.mtimecmp t.now % 2 ^ 32)

/-- `REGW(0x2004000, mhartid * 8 + 0) = v` -/
def writeLow (v : ℕ) (t : Timer) : Timer := t.store (t.mtimecmp t.now / 2 ^ 32 * 2 ^ 32 + v)

/-! ### The code -/

/-- `mtime_get`, of whose loop at most `fuel` iterations are run -/
def mtimeGet (c : Counter) : ℕ → Timer → Option (ℕ × Timer)
  | 0, _ => none
  | fuel + 1, t =>
      let (high, t) := readHigh c t
      let (low, t) := readLow c t
      let (again, t) := readHigh c t
      if again ≠ high then mtimeGet c fuel t else some (high <<< 32 ||| low, t)

/-- `mtimecmp_set` -/
def mtimecmpSet (time : ℕ) (t : Timer) : Timer :=
  let t := writeHigh 0xFFFFFFFF t
  let t := writeLow (time % 2 ^ 32) t
  writeHigh (time / 2 ^ 32 % 2 ^ 32) t

/-- `timer_reset` -/
def timerReset (c : Counter) (QUANTUM : ℕ) (fuel : ℕ) (t : Timer) : Option Timer := do
  let (time, t) ← mtimeGet c fuel t
  return mtimecmpSet ((time + QUANTUM) % 2 ^ 64) t

/-! ### Reading the counter -/

/-- The two halves of a number. -/
theorem shiftLeft_or_mod (n : ℕ) : (n / 2 ^ 32) <<< 32 ||| n % 2 ^ 32 = n := by
  rw [← Nat.shiftLeft_add_eq_or_of_lt (Nat.mod_lt n (by decide)), Nat.shiftLeft_eq]
  omega

/-- One iteration of the loop. -/
theorem mtimeGet_succ (c : Counter) (fuel : ℕ) (t : Timer) :
    mtimeGet c (fuel + 1) t =
      if c.mtime (t.now + 2) / 2 ^ 32 ≠ c.mtime t.now / 2 ^ 32 then
        mtimeGet c fuel { t with now := t.now + 3 }
      else
        some ((c.mtime t.now / 2 ^ 32) <<< 32 ||| c.mtime (t.now + 1) % 2 ^ 32,
          { t with now := t.now + 3 }) := rfl

/-- **The value read is one that the counter had** at one of the reads. -/
theorem mtimeGet_eq (c : Counter) : ∀ (fuel : ℕ) {t t' : Timer} {v : ℕ},
    mtimeGet c fuel t = some (v, t') →
      (∃ k, t.now ≤ k ∧ k < t'.now ∧ v = c.mtime k) ∧ t'.mtimecmp = t.mtimecmp := by
  intro fuel
  induction fuel with
  | zero =>
      intro t t' v h
      exact absurd h (by simp [mtimeGet])
  | succ fuel ih =>
      intro t t' v h
      rw [mtimeGet_succ] at h
      by_cases hagain : c.mtime (t.now + 2) / 2 ^ 32 ≠ c.mtime t.now / 2 ^ 32
      · rw [if_pos hagain] at h
        obtain ⟨⟨k, hlo, hhi, hv⟩, hcmp⟩ := ih h
        exact ⟨⟨k, Nat.le_of_add_right_le hlo, hhi, hv⟩, hcmp⟩
      · rw [if_neg hagain, Option.some.injEq, Prod.mk.injEq] at h
        obtain ⟨rfl, rfl⟩ := h
        -- the high half is the same at the read of the low half, which is in between
        have h₁ : c.mtime t.now ≤ c.mtime (t.now + 1) := c.mono (by omega)
        have h₂ : c.mtime (t.now + 1) ≤ c.mtime (t.now + 2) := c.mono (by omega)
        have hhigh : c.mtime t.now / 2 ^ 32 = c.mtime (t.now + 1) / 2 ^ 32 := by omega
        refine ⟨⟨t.now + 1, by omega, by simp only; omega, ?_⟩, rfl⟩
        rw [hhigh, shiftLeft_or_mod]

/-- **The loop ends**: with every iteration that does not, the high half has gone up. -/
theorem exists_mtimeGet (c : Counter) : ∀ (fuel : ℕ) (t : Timer),
    2 ^ 31 ≤ fuel + c.mtime t.now / 2 ^ 32 → ∃ r, mtimeGet c fuel t = some r := by
  intro fuel
  induction fuel with
  | zero =>
      intro t h
      have hbound := c.bound t.now
      omega
  | succ fuel ih =>
      intro t h
      rw [mtimeGet_succ]
      by_cases hagain : c.mtime (t.now + 2) / 2 ^ 32 ≠ c.mtime t.now / 2 ^ 32
      · rw [if_pos hagain]
        have h₁ : c.mtime t.now ≤ c.mtime (t.now + 2) := c.mono (by omega)
        have h₂ : c.mtime (t.now + 2) ≤ c.mtime (t.now + 3) := c.mono (by omega)
        refine ih _ ?_
        dsimp only
        omega
      · rw [if_neg hagain]
        exact ⟨_, rfl⟩

/-! ### Setting the compare register -/

/-- The value that was just written. -/
theorem Timer.store_current (t : Timer) (v : ℕ) : (t.store v).mtimecmp (t.store v).now = v :=
  if_pos (Nat.lt_succ_self t.now)

theorem mtimecmpSet_now (time : ℕ) (t : Timer) : (mtimecmpSet time t).now = t.now + 3 := rfl

/-- The compare register at every moment. -/
theorem mtimecmpSet_mtimecmp (time : ℕ) (t : Timer) (n : ℕ) :
    (mtimecmpSet time t).mtimecmp n =
      if t.now + 2 < n then time / 2 ^ 32 % 2 ^ 32 * 2 ^ 32 + time % 2 ^ 32
      else if t.now + 1 < n then 0xFFFFFFFF * 2 ^ 32 + time % 2 ^ 32
      else if t.now < n then 0xFFFFFFFF * 2 ^ 32 + t.mtimecmp t.now % 2 ^ 32
      else t.mtimecmp n := by
  have h₁ : (0xFFFFFFFF * 2 ^ 32 + t.mtimecmp t.now % 2 ^ 32) / 2 ^ 32 * 2 ^ 32 + time % 2 ^ 32 =
      0xFFFFFFFF * 2 ^ 32 + time % 2 ^ 32 := by omega
  have h₂ : (0xFFFFFFFF * 2 ^ 32 + time % 2 ^ 32) % 2 ^ 32 = time % 2 ^ 32 := by omega
  unfold mtimecmpSet writeHigh writeLow
  dsimp only
  rw [Timer.store_current, Timer.store_current, h₁, h₂]
  rfl

/-- **Between the writes** the compare register is near its end. -/
theorem mtimecmpSet_between (time : ℕ) (t : Timer) {n : ℕ} (hlo : t.now < n)
    (hhi : n < t.now + 3) : 0xFFFFFFFF00000000 ≤ (mtimecmpSet time t).mtimecmp n := by
  rw [mtimecmpSet_mtimecmp, if_neg (by omega)]
  by_cases hn : t.now + 1 < n
  · rw [if_pos hn]
    omega
  · rw [if_neg hn, if_pos hlo]
    omega

/-- **After the writes** it is the time. -/
theorem mtimecmpSet_after {time : ℕ} (htime : time < 2 ^ 64) (t : Timer) {n : ℕ}
    (hn : t.now + 3 ≤ n) : (mtimecmpSet time t).mtimecmp n = time := by
  rw [mtimecmpSet_mtimecmp, if_pos (by omega)]
  omega

/-! ### The timer -/

/-- **The timer is read and set consistently.**  `mtime_get` returns, and its value is one that the
counter had at one of its reads; while `mtimecmp_set` is under way the compare register is near its
end, and then it is the time; and `timer_reset` returns, and from its first write on no interrupt is
pending before `QUANTUM` ticks after one of its reads. -/
theorem timer_consistent (c : Counter) (t : Timer) :
    (∃ enough, ∀ fuel ≥ enough, ∃ v t', mtimeGet c fuel t = some (v, t')) ∧
    (∀ fuel v t', mtimeGet c fuel t = some (v, t') →
      ∃ k, t.now ≤ k ∧ k < t'.now ∧ v = c.mtime k) ∧
    (∀ time < 2 ^ 64,
      (∀ n, t.now < n → n < (mtimecmpSet time t).now →
        0xFFFFFFFF00000000 ≤ (mtimecmpSet time t).mtimecmp n) ∧
      ∀ n, (mtimecmpSet time t).now ≤ n → (mtimecmpSet time t).mtimecmp n = time) ∧
    ∀ QUANTUM < 2 ^ 32,
      (∃ enough, ∀ fuel ≥ enough, ∃ t', timerReset c QUANTUM fuel t = some t') ∧
      ∀ fuel t', timerReset c QUANTUM fuel t = some t' →
        ∃ k first, t.now ≤ k ∧ k < first ∧ first < t'.now ∧
          (∀ n ≤ first, t'.mtimecmp n = t.mtimecmp n) ∧
          ∀ n > first, t'.Pending c n → c.mtime k + QUANTUM ≤ c.mtime n := by
  have hends : ∃ enough, ∀ fuel ≥ enough, ∃ v t', mtimeGet c fuel t = some (v, t') := by
    refine ⟨2 ^ 31, ?_⟩
    intro fuel hfuel
    obtain ⟨⟨v, t'⟩, hget⟩ := exists_mtimeGet c fuel t (by omega)
    exact ⟨v, t', hget⟩
  refine ⟨hends, ?_, ?_, ?_⟩
  · intro fuel v t' hget
    exact (mtimeGet_eq c fuel hget).1
  · intro time htime
    exact ⟨fun n hlo hhi => mtimecmpSet_between time t hlo hhi,
      fun n hn => mtimecmpSet_after htime t hn⟩
  · intro QUANTUM hquantum
    refine ⟨?_, ?_⟩
    · obtain ⟨enough, henough⟩ := hends
      refine ⟨enough, ?_⟩
      intro fuel hfuel
      obtain ⟨v, t', hget⟩ := henough fuel hfuel
      unfold timerReset
      rw [hget]
      exact ⟨_, rfl⟩
    · intro fuel t' hreset
      obtain ⟨⟨v, t₁⟩, hget, hset⟩ := Option.bind_eq_some_iff.1 hreset
      obtain rfl := Option.some.inj hset
      obtain ⟨⟨k, hlo, hhi, rfl⟩, hcmp⟩ := mtimeGet_eq c fuel hget
      have hk := c.bound k
      have hmod : (c.mtime k + QUANTUM) % 2 ^ 64 = c.mtime k + QUANTUM :=
        Nat.mod_eq_of_lt (by omega)
      refine ⟨k, t₁.now, hlo, hhi, by simp only [mtimecmpSet_now]; omega, ?_, ?_⟩
      · intro n hn
        rw [mtimecmpSet_mtimecmp, if_neg (by omega), if_neg (by omega), if_neg (by omega), hcmp]
      · intro n hn hpending
        unfold Timer.Pending at hpending
        rw [hmod] at hpending
        by_cases hafter : t₁.now + 3 ≤ n
        · rw [mtimecmpSet_after (by omega) t₁ hafter] at hpending
          exact hpending
        · -- the counter does not come to the end of its range
          have hbetween := mtimecmpSet_between (c.mtime k + QUANTUM) t₁ hn (by omega)
          have hn' := c.bound n
          omega

/-- A counter whose low half runs over after the first read. -/
def carryCounter : Counter where
  mtime := fun n => 0xFFFFFFFF + min n 5
  mono := by
    intro n k hnk
    dsimp only
    omega
  bound := by
    intro n
    omega

/-- The loop reads the counter once more. -/
theorem timer_consistent_carry :
    mtimeGet carryCounter 2 ⟨0, fun _ => 0⟩ = some (0x100000003, ⟨6, fun _ => 0⟩) ∧
      ∃ k, 0 ≤ k ∧ k < 6 ∧ 0x100000003 = carryCounter.mtime k :=
  ⟨rfl, (timer_consistent carryCounter ⟨0, fun _ => 0⟩).2.1 2 0x100000003 ⟨6, fun _ => 0⟩ rfl⟩

end Egos
