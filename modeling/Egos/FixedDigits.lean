/-
**Digits of fixed width.**

A number below `B ^ L` is written with exactly `L` digits in base `B`, the most significant digit
first.  Read as a path, this is how a complete `B`-ary tree of height `L` is addressed: the first
digit selects a child of the root, and the remaining ones address a position below that child.
Nothing here refers to a particular program.

Main definitions:

* `FixedDigits.digits` — the digits of a number.

Main results:

* `FixedDigits.digits_inj`, `FixedDigits.exists_digits` — the numbers below `B ^ L` and the lists of
  `L` digits correspond to each other;
* `FixedDigits.digits_succ_of_lt`, `FixedDigits.head_ne_zero` — how the digits change when the width
  grows by one.
-/

import Mathlib.Data.Nat.ModEq
import Mathlib.Data.Fin.Basic
import Mathlib.Data.List.Induction

set_option autoImplicit false

namespace FixedDigits

variable {B : ℕ} [NeZero B]

/-- The last `L` digits of `x` in base `B`, the most significant one first. -/
def digits (B : ℕ) [NeZero B] : ℕ → ℕ → List (Fin B)
  | 0, _ => []
  | L + 1, x => Fin.ofNat B (x / B ^ L) :: digits B L x

@[simp] theorem digits_zero (x : ℕ) : digits B 0 x = [] := rfl

theorem digits_succ (L x : ℕ) : digits B (L + 1) x = Fin.ofNat B (x / B ^ L) :: digits B L x := rfl

@[simp] theorem length_digits (L x : ℕ) : (digits B L x).length = L := by
  induction L with
  | zero => rfl
  | succ L ih => rw [digits_succ, List.length_cons, ih]

/-- The last `L` digits determine a number modulo `B ^ L`. -/
theorem mod_eq_of_digits_eq {L x y : ℕ} (h : digits B L x = digits B L y) :
    x % B ^ L = y % B ^ L := by
  induction L with
  | zero => simp [Nat.mod_one]
  | succ L ih =>
      rw [digits_succ, digits_succ, List.cons.injEq] at h
      have hhead : x / B ^ L % B = y / B ^ L % B := congrArg Fin.val h.1
      rw [Nat.mod_pow_succ, Nat.mod_pow_succ, ih h.2, hhead]

/-- **Different numbers have different digits.** -/
theorem digits_inj {L x y : ℕ} (hx : x < B ^ L) (hy : y < B ^ L)
    (h : digits B L x = digits B L y) : x = y := by
  have := mod_eq_of_digits_eq h
  rwa [Nat.mod_eq_of_lt hx, Nat.mod_eq_of_lt hy] at this

/-- A number that fits in `L` digits gets a leading zero when the width grows. -/
theorem digits_succ_of_lt {L x : ℕ} (h : x < B ^ L) : digits B (L + 1) x = 0 :: digits B L x := by
  rw [digits_succ, Nat.div_eq_of_lt h]
  rfl

/-- A number that does not fit in `L` digits has a leading digit other than zero. -/
theorem head_ne_zero {L x : ℕ} (h : B ^ L ≤ x) (h' : x < B ^ (L + 1)) :
    Fin.ofNat B (x / B ^ L) ≠ 0 := by
  have hpos : 0 < B ^ L := Nat.pow_pos (Nat.pos_of_ne_zero (NeZero.ne B))
  have hlt : x / B ^ L < B := Nat.div_lt_of_lt_mul (by rwa [← Nat.pow_succ])
  have hge : 0 < x / B ^ L := Nat.div_pos h hpos
  intro h0
  have hval : x / B ^ L % B = 0 := congrArg Fin.val h0
  rw [Nat.mod_eq_of_lt hlt] at hval
  omega

/-- The first digits are those of the quotient. -/
theorem digits_add (K L x : ℕ) : digits B (K + L) x = digits B K (x / B ^ L) ++ digits B L x := by
  induction K with
  | zero => rw [Nat.zero_add, digits_zero, List.nil_append]
  | succ K ih =>
      rw [Nat.add_right_comm, digits_succ, digits_succ, List.cons_append, ih,
        Nat.div_div_eq_div_mul, ← Nat.pow_add, Nat.add_comm L K]

/-- Every list of digits belongs to a number. -/
theorem exists_digits (p : List (Fin B)) : ∃ x < B ^ p.length, digits B p.length x = p := by
  induction p using List.reverseRecOn with
  | nil => exact ⟨0, Nat.one_pos, rfl⟩
  | append_singleton p i ih =>
      obtain ⟨x, hx, hp⟩ := ih
      have hi := i.isLt
      refine ⟨x * B + i, ?_, ?_⟩
      · rw [List.length_append, List.length_singleton, Nat.pow_succ]
        calc x * B + i < x * B + B := by omega
          _ = (x + 1) * B := (Nat.succ_mul x B).symm
          _ ≤ B ^ p.length * B := Nat.mul_le_mul_right B hx
      · have hdiv : (x * B + i) / B = x := by
          rw [Nat.mul_comm, Nat.mul_add_div (by omega), Nat.div_eq_of_lt hi, Nat.add_zero]
        rw [List.length_append, List.length_singleton, digits_add, Nat.pow_one, hdiv, hp,
          digits_succ, digits_zero, Nat.pow_zero, Nat.div_one]
        refine congrArg (p ++ [·]) (Fin.ext ?_)
        rw [Fin.val_ofNat, Nat.mul_comm, Nat.mul_add_mod, Nat.mod_eq_of_lt hi]

/-- Numbers with the same first digits have the same quotient. -/
theorem div_eq_of_digits {p r r' : List (Fin B)} {L x y : ℕ} (hx : x < B ^ (p.length + L))
    (hy : y < B ^ (p.length + L)) (hp : digits B (p.length + L) x = p ++ r)
    (hp' : digits B (p.length + L) y = p ++ r') : x / B ^ L = y / B ^ L := by
  rw [Nat.pow_add, Nat.mul_comm] at hx hy
  rw [digits_add] at hp hp'
  have hxp := (List.append_inj hp (length_digits _ _)).1
  have hyp := (List.append_inj hp' (length_digits _ _)).1
  exact digits_inj (Nat.div_lt_of_lt_mul hx) (Nat.div_lt_of_lt_mul hy) (hxp.trans hyp.symm)

end FixedDigits
