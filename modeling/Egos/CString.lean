/-
**Strings of C.**

A pointer into an array of bytes is given by the bytes from there to the end of the array, as a
list; the functions of the C library are then functions of lists.  A function that would have to
read past the end of the array has no result.  A string that is known to end with a null byte is
given by the characters before it.  Nothing here refers to a particular program.

Main definitions:

* `CString.strlen`, `CString.strncmp`, `CString.strcpy`, `CString.strcat`, `CString.atoi` —
  functions of `string.h` and `stdlib.h`;
* `CString.Holds` — an array holds a string;
* `CString.decimal` — a number, written in decimal.

Main results:

* `CString.strncmp_eq_some_true_iff` — comparing with a prefix;
* `CString.strcpy_spec`, `CString.Holds.strcat_spec` — copying and appending in an array with room;
* `CString.atoi_decimal` — **`atoi` reads back a decimal number**;
* `CString.atoi_isSome_of_mem`, `CString.atoi_isSome_append` — where `atoi` stops.
-/

import Mathlib.Algebra.Group.Int.Defs
import Mathlib.Algebra.Group.Nat.Defs
import Mathlib.Data.Int.Basic
import Mathlib.Data.List.Basic
import Mathlib.Data.List.GetD
import Mathlib.Data.List.Infix

set_option autoImplicit false

namespace CString

/-! ### Lengths and prefixes -/

/-- `strlen(s)` -/
def strlen : List UInt8 → Option ℕ
  | [] => none
  | c :: s => if c = 0 then some 0 else (strlen s).map (· + 1)

/-- The length of a string is the number of the bytes before the first null byte. -/
theorem strlen_append {s : List UInt8} (hs : 0 ∉ s) (t : List UInt8) :
    strlen (s ++ 0 :: t) = some s.length := by
  induction s with
  | nil => rw [List.nil_append, strlen, if_pos rfl, List.length_nil]
  | cons c s ih =>
      have hc : c ≠ 0 := fun h => hs (h ▸ List.mem_cons_self)
      rw [List.cons_append, strlen, if_neg hc, ih fun h => hs (List.mem_cons_of_mem _ h),
        Option.map_some, List.length_cons]

/-- An array that contains a null byte holds a string. -/
theorem exists_of_mem {l : List UInt8} (h : 0 ∈ l) : ∃ s t, l = s ++ 0 :: t ∧ 0 ∉ s := by
  induction l with
  | nil => exact absurd h List.not_mem_nil
  | cons c l ih =>
      by_cases hc : c = 0
      · subst hc
        exact ⟨[], l, rfl, List.not_mem_nil⟩
      · obtain ⟨s, t, rfl, hs⟩ := ih ((List.mem_cons.1 h).resolve_left (Ne.symm hc))
        refine ⟨c :: s, t, rfl, fun hmem => ?_⟩
        rcases List.mem_cons.1 hmem with h0 | hmem
        · exact hc h0.symm
        · exact hs hmem

/-- `strncmp(name, s, strlen(name)) == 0`.  The comparison stops at the first difference. -/
def strncmp : List UInt8 → List UInt8 → Option Bool
  | [], _ => some true
  | _ :: _, [] => none
  | c :: name, d :: s => if c = d then strncmp name s else some false

theorem strncmp_eq_some_true_iff {name s : List UInt8} :
    strncmp name s = some true ↔ name <+: s := by
  induction name generalizing s with
  | nil => exact ⟨fun _ => List.nil_prefix, fun _ => rfl⟩
  | cons c name ih =>
      cases s with
      | nil => exact ⟨fun h => absurd h (by simp [strncmp]), fun h => absurd h (by simp)⟩
      | cons d s =>
          rw [strncmp, List.cons_prefix_cons]
          by_cases hc : c = d
          · rw [if_pos hc, ih]
            exact ⟨fun h => ⟨hc, h⟩, fun h => h.2⟩
          · rw [if_neg hc]
            exact ⟨fun h => absurd h (by simp), fun h => absurd h.1 hc⟩

/-- The comparison has a result if the array is long enough. -/
theorem strncmp_isSome {name s : List UInt8} (h : name.length ≤ s.length) :
    (strncmp name s).isSome = true := by
  induction name generalizing s with
  | nil => rfl
  | cons c name ih =>
      cases s with
      | nil => exact absurd h (by simp)
      | cons d s =>
          rw [strncmp]
          split
          · exact ih (Nat.le_of_succ_le_succ h)
          · rfl

/-! ### Strings in arrays -/

/-- An array that is filled up with a default value. -/
theorem ofFn_getD {α : Type*} {n : ℕ} (l : List α) (a : α) (h : l.length ≤ n) :
    List.ofFn (fun k : Fin n => l.getD k a) = l ++ List.replicate (n - l.length) a := by
  have hlength : n = l.length + (n - l.length) := by omega
  refine List.ext_getElem ?_ fun k h₁ h₂ => ?_
  · rw [List.length_ofFn, List.length_append, List.length_replicate]
    exact hlength
  · rw [List.getElem_ofFn]
    rcases Nat.lt_or_ge k l.length with hlt | hge
    · rw [List.getElem_append_left hlt, List.getD_eq_getElem l a hlt]
    · rw [List.getElem_append_right hge, List.getElem_replicate, List.getD_eq_default l a hge]

/-- Storing bytes in an array, from an index on. -/
def store (buf : List UInt8) (i : ℕ) (s : List UInt8) : Option (List UInt8) :=
  if i + s.length ≤ buf.length then some (buf.take i ++ (s ++ buf.drop (i + s.length))) else none

/-- `strcpy(buf, s)` -/
def strcpy (buf s : List UInt8) : Option (List UInt8) := store buf 0 (s ++ [0])

/-- `strcat(buf, s)` -/
def strcat (buf s : List UInt8) : Option (List UInt8) := do
  let len ← strlen buf
  store buf len (s ++ [0])

/-- The string at the start of an array. -/
def str (buf : List UInt8) : List UInt8 := buf.takeWhile (· ≠ 0)

/-- An array holds a string. -/
def Holds (buf s : List UInt8) : Prop := 0 ∉ s ∧ ∃ rest, buf = s ++ 0 :: rest

namespace Holds

variable {buf s : List UInt8}

theorem strlen_eq (h : Holds buf s) : strlen buf = some s.length := by
  obtain ⟨hs, rest, rfl⟩ := h
  exact strlen_append hs rest

theorem str_eq (h : Holds buf s) : str buf = s := by
  obtain ⟨hs, rest, rfl⟩ := h
  have hall : ∀ c ∈ s, (decide (c ≠ 0)) = true := fun c hc =>
    decide_eq_true fun h0 => hs (h0 ▸ hc)
  rw [str, List.takeWhile_append_of_pos hall, List.takeWhile_cons_of_neg (by simp), List.append_nil]

end Holds

/-- Copying a string into an array with room for it. -/
theorem strcpy_spec {buf s : List UInt8} (hs : 0 ∉ s) (hlen : s.length < buf.length) :
    ∃ buf', strcpy buf s = some buf' ∧ Holds buf' s ∧ buf'.length = buf.length := by
  refine ⟨s ++ 0 :: buf.drop (s.length + 1), ?_, ⟨hs, _, rfl⟩, ?_⟩
  · rw [strcpy, store, List.length_append, List.length_singleton, if_pos (by omega), List.take_zero,
      List.nil_append, Nat.zero_add, List.append_assoc, List.singleton_append]
  · rw [List.length_append, List.length_cons, List.length_drop]
    omega

/-- **Appending a string** to one in an array with room for both. -/
theorem Holds.strcat_spec {buf s t : List UInt8} (h : Holds buf s) (ht : 0 ∉ t)
    (hlen : s.length + t.length < buf.length) :
    ∃ buf', strcat buf t = some buf' ∧ Holds buf' (s ++ t) ∧ buf'.length = buf.length := by
  have hstrlen := h.strlen_eq
  obtain ⟨hs, rest, rfl⟩ := h
  rw [List.length_append, List.length_cons] at hlen
  have hst : 0 ∉ s ++ t := fun h0 => (List.mem_append.1 h0).elim hs ht
  refine ⟨s ++ t ++ 0 :: (s ++ 0 :: rest).drop (s.length + (t.length + 1)), ?_, ⟨hst, _, rfl⟩, ?_⟩
  · rw [strcat, hstrlen, Option.bind_eq_bind, Option.bind_some, store, List.length_append,
      List.length_singleton, List.length_append, List.length_cons, if_pos (by omega),
      List.take_left' rfl]
    simp only [List.append_assoc, List.singleton_append]
  · simp only [List.length_append, List.length_cons, List.length_drop]
    omega

/-! ### Numbers -/

/-- `isspace(c)` -/
def isspace (c : UInt8) : Bool := c = 32 || (9 ≤ c && c ≤ 13)

/-- `isdigit(c)` -/
def isdigit (c : UInt8) : Bool := 48 ≤ c && c ≤ 57

/-- The digits at the start of an array, after digits of the value `v`. -/
def digits : ℕ → List UInt8 → Option ℕ
  | _, [] => none
  | v, c :: s => if isdigit c then digits (10 * v + (c.toNat - 48)) s else some v

/-- The part of `atoi` after the white space: an optional sign, and digits.  A number that is too
large for an `int` is replaced by the largest or the smallest one. -/
def signed : List UInt8 → Option ℤ
  | [] => none
  | c :: s =>
      if c = 45 then (digits 0 s).map fun v : ℕ => max (-(v : ℤ)) (-2 ^ 31)
      else if c = 43 then (digits 0 s).map fun v : ℕ => min (v : ℤ) (2 ^ 31 - 1)
      else (digits 0 (c :: s)).map fun v : ℕ => min (v : ℤ) (2 ^ 31 - 1)

/-- `atoi(s)` -/
def atoi : List UInt8 → Option ℤ
  | [] => none
  | c :: s => if isspace c then atoi s else signed (c :: s)

/-- The digits stop at the first character that is not one. -/
theorem digits_isSome_append {c : UInt8} (hc : isdigit c = false) (s t : List UInt8) (v : ℕ) :
    (digits v (s ++ c :: t)).isSome = true := by
  induction s generalizing v with
  | nil => rw [List.nil_append, digits, hc, if_neg (by decide), Option.isSome_some]
  | cons d s ih =>
      rw [List.cons_append, digits]
      split
      · exact ih _
      · rfl

theorem signed_isSome_append {c : UInt8} (hc : isdigit c = false) {d : UInt8} (s t : List UInt8) :
    (signed (d :: (s ++ c :: t))).isSome = true := by
  have htail := digits_isSome_append hc s t 0
  have hall := digits_isSome_append hc (d :: s) t 0
  rw [List.cons_append] at hall
  rw [signed]
  split
  · rwa [Option.isSome_map]
  · split
    · rwa [Option.isSome_map]
    · rwa [Option.isSome_map]

/-- A number before a space ends there, if not earlier; unless there is only white space before
it. -/
theorem atoi_isSome_append {t : List UInt8} (h : (atoi (32 :: t)).isSome = true) (s : List UInt8) :
    (atoi (s ++ 32 :: t)).isSome = true := by
  induction s with
  | nil => exact h
  | cons d s ih =>
      rw [List.cons_append, atoi]
      split
      · exact ih
      · exact signed_isSome_append (by decide) s t

/-- A number in a string ends at its null byte, if not earlier. -/
theorem atoi_isSome_of_mem {l : List UInt8} (h : 0 ∈ l) : (atoi l).isSome = true := by
  induction l with
  | nil => exact absurd h List.not_mem_nil
  | cons d l ih =>
      rw [atoi]
      split
      · rename_i hd
        refine ih ((List.mem_cons.1 h).resolve_left fun h0 => ?_)
        rw [← h0] at hd
        exact absurd hd (by decide)
      · rcases List.mem_cons.1 h with h0 | hmem
        · subst h0
          rfl
        · obtain ⟨s, t, rfl, -⟩ := exists_of_mem hmem
          exact signed_isSome_append (by decide) s t

/-! ### Decimal numbers -/

/-- A number, written in decimal. -/
def decimal (n : ℕ) : List UInt8 := (Nat.toDigits 10 n).map fun c => UInt8.ofNat c.toNat

theorem decimal_ne_nil (n : ℕ) : decimal n ≠ [] := by
  rw [decimal, Ne, List.map_eq_nil_iff]
  exact Nat.toDigits_ne_nil

theorem isdigit_iff (c : UInt8) : isdigit c = true ↔ 48 ≤ c.toNat ∧ c.toNat ≤ 57 := by
  rw [isdigit, Bool.and_eq_true, decide_eq_true_eq, decide_eq_true_eq, UInt8.le_iff_toNat_le,
    UInt8.le_iff_toNat_le]
  rfl

/-- A digit is no white space and no sign. -/
theorem ne_of_isdigit {c : UInt8} (hc : isdigit c = true) :
    isspace c = false ∧ c ≠ 45 ∧ c ≠ 43 := by
  have hval := (isdigit_iff c).1 hc
  refine ⟨?_, ?_, ?_⟩
  · rw [isspace, Bool.or_eq_false_iff, Bool.and_eq_false_iff, decide_eq_false_iff_not,
      decide_eq_false_iff_not, decide_eq_false_iff_not, ← UInt8.toNat_inj, UInt8.le_iff_toNat_le,
      UInt8.le_iff_toNat_le]
    change c.toNat ≠ 32 ∧ (¬ 9 ≤ c.toNat ∨ ¬ c.toNat ≤ 13)
    omega
  · rintro rfl
    exact absurd hc (by decide)
  · rintro rfl
    exact absurd hc (by decide)

/-- The byte of a digit. -/
theorem byte_of_isDigit {c : Char} (hc : c.isDigit = true) :
    (UInt8.ofNat c.toNat).toNat = c.toNat ∧ isdigit (UInt8.ofNat c.toNat) = true := by
  have hval : 48 ≤ c.toNat ∧ c.toNat ≤ 57 := Char.isDigit_iff_toNat.1 hc
  have hbyte : (UInt8.ofNat c.toNat).toNat = c.toNat := by
    rw [UInt8.toNat_ofNat']
    omega
  exact ⟨hbyte, (isdigit_iff _).2 (hbyte.symm ▸ hval)⟩

theorem isdigit_of_mem_decimal {n : ℕ} {b : UInt8} (hb : b ∈ decimal n) : isdigit b = true := by
  obtain ⟨c, hc, rfl⟩ := List.mem_map.1 hb
  exact (byte_of_isDigit (Nat.isDigit_of_mem_toDigits (by decide) (by decide) hc)).2

/-- The value of digits. -/
theorem digits_map {l : List Char} (hl : ∀ c ∈ l, c.isDigit = true) {d : UInt8}
    (hd : isdigit d = false) (t : List UInt8) (v : ℕ) :
    digits v ((l.map fun c => UInt8.ofNat c.toNat) ++ d :: t) = some (Nat.ofDigitChars 10 l v) := by
  induction l generalizing v with
  | nil => rw [List.map_nil, List.nil_append, digits, hd, if_neg (by decide), Nat.ofDigitChars_nil]
  | cons c l ih =>
      have hc := hl c List.mem_cons_self
      obtain ⟨hbyte, hdigit⟩ := byte_of_isDigit hc
      rw [List.map_cons, List.cons_append, digits, hdigit, if_pos rfl, hbyte,
        ih fun c' h => hl c' (List.mem_cons_of_mem _ h), Nat.ofDigitChars_cons]
      rfl

/-- **`atoi` reads back a decimal number**, after spaces and before a character that is no digit. -/
theorem atoi_decimal {n : ℕ} (hn : n < 2 ^ 31) {d : UInt8} (hd : isdigit d = false)
    (t : List UInt8) (k : ℕ) :
    atoi (List.replicate k 32 ++ (decimal n ++ d :: t)) = some (n : ℤ) := by
  induction k with
  | succ k ih =>
      rw [List.replicate_succ, List.cons_append, atoi, if_pos (by decide), ih]
  | zero =>
      rw [List.replicate_zero, List.nil_append]
      have hval := digits_map (fun c hc => Nat.isDigit_of_mem_toDigits (by decide) (by decide) hc)
        hd t 0 (l := Nat.toDigits 10 n)
      rw [Nat.ofDigitChars_ten_toDigits] at hval
      change digits 0 (decimal n ++ d :: t) = some n at hval
      have hdigits : ∀ b ∈ decimal n, isdigit b = true := fun b hb => isdigit_of_mem_decimal hb
      have hne := decimal_ne_nil n
      generalize decimal n = l at hval hdigits hne
      cases l with
      | nil => exact absurd rfl hne
      | cons b l =>
          have hb := hdigits b List.mem_cons_self
          obtain ⟨hspace, hminus, hplus⟩ := ne_of_isdigit hb
          have hle : (n : ℤ) ≤ 2 ^ 31 - 1 := by omega
          rw [List.cons_append] at hval
          rw [List.cons_append, atoi, hspace, if_neg (by decide), signed, if_neg hminus,
            if_neg hplus, hval, Option.map_some, Int.min_eq_left hle]

end CString
