/-
**What a terminal shows of a line that is edited.**

A program that lets its user edit a line has to keep what the terminal shows and the line in its
memory in step by the bytes that it writes.  It erases a character by a backspace, a space and
another backspace.  Whether this works depends on the terminal, and on the room that is left in its
row; a terminal is any function that takes a byte, and `Screen.HasRoom` says what is expected of it.

Main definitions:

* `Screen.write` — bytes are written to a terminal;
* `Screen.HasRoom` — up to a length, the last character of a line can be erased;
* `Screen.Rows`, `Screen.Rows.put` — a terminal with rows of some width.

Main results:

* `Screen.Rows.hasRoom` — it has room up to the end of the row.
-/

import Mathlib.Data.List.GetD
import Mathlib.Data.List.Induction
import Mathlib.Logic.Function.Basic

set_option autoImplicit false

namespace Screen

open Function (update update_apply update_eq_self_iff update_idem)

/-- A character that takes one place. -/
def Printable (c : UInt8) : Prop := 32 ≤ c ∧ c < 127

instance (c : UInt8) : Decidable (Printable c) := inferInstanceAs (Decidable (_ ∧ _))

section Terminal

variable {S : Type*} (put : S → UInt8 → S)

/-- Bytes are written, one after the other. -/
def write (s : S) (bytes : List UInt8) : S := bytes.foldl put s

/-- **There is room for a line**: behind a line that is shorter, a character that is written can be
erased by a backspace, a space and a backspace. -/
def HasRoom (s₀ : S) (room : ℕ) : Prop :=
  ∀ line c, (∀ b ∈ line, Printable b) → Printable c → line.length < room →
    write put (write put s₀ (line ++ [c])) [8, 32, 8] = write put s₀ line

theorem write_append (s : S) (bytes bytes' : List UInt8) :
    write put s (bytes ++ bytes') = write put (write put s bytes) bytes' := List.foldl_append

end Terminal

/-! ### Rows -/

/-- A terminal with rows: those above the last one, from the bottom to the top, the last one, and
the position of the cursor in it. -/
structure Rows where
  above : List (ℕ → UInt8)
  row : ℕ → UInt8
  cursor : ℕ

namespace Rows

/-- The empty row. -/
def blank : ℕ → UInt8 := fun _ => 32

/-- A byte is written.  In the first column, a backspace does nothing; behind the last one, a
character goes to the next row. -/
def put (width : ℕ) (s : Rows) (c : UInt8) : Rows :=
  if c = 8 then { s with cursor := s.cursor - 1 }
  else if c = 13 then { s with cursor := 0 }
  else if c = 10 then { s with above := s.row :: s.above, row := blank }
  else if s.cursor < width then
    { s with row := update s.row s.cursor c, cursor := s.cursor + 1 }
  else ⟨s.row :: s.above, update blank 0 c, 1⟩

theorem put_printable {width : ℕ} {s : Rows} (hs : s.cursor < width) {c : UInt8}
    (hc : Printable c) :
    s.put width c =
      { s with row := update s.row s.cursor c, cursor := s.cursor + 1 } := by
  obtain ⟨hlow, -⟩ := hc
  have hne : ∀ d : UInt8, d < 32 → c ≠ d := by
    rintro d hd rfl
    exact absurd hlow (UInt8.not_le.2 hd)
  rw [put, if_neg (hne 8 (by decide)), if_neg (hne 13 (by decide)), if_neg (hne 10 (by decide)),
    if_pos hs]

/-- A row, with a line from a column on. -/
def rowWith (row : ℕ → UInt8) (col : ℕ) (line : List UInt8) : ℕ → UInt8 := fun k =>
  if k < col then row k else line.getD (k - col) 32

/-- Storing a character at the end of the line. -/
theorem update_rowWith (row : ℕ → UInt8) (col : ℕ) (line : List UInt8) (c : UInt8) :
    update (rowWith row col line) (col + line.length) c =
      rowWith row col (line ++ [c]) := by
  funext k
  rw [update_apply]
  split
  · rename_i hk
    rw [hk, rowWith, if_neg (by omega), Nat.add_sub_cancel_left,
      List.getD_append_right _ _ _ _ (Nat.le_refl _), Nat.sub_self, List.getD_cons_zero]
  · rename_i hk
    rw [rowWith, rowWith]
    split
    · rfl
    · rcases Nat.lt_or_ge (k - col) line.length with hlt | hge
      · rw [List.getD_append _ _ _ _ hlt]
      · rw [List.getD_eq_default _ _ hge, List.getD_eq_default]
        rw [List.length_append, List.length_singleton]
        omega

/-- A space in place of the last character is not seen. -/
theorem update_rowWith_space (row : ℕ → UInt8) (col : ℕ) (line : List UInt8) (c : UInt8) :
    update (rowWith row col (line ++ [c])) (col + line.length) 32 =
      rowWith row col line := by
  rw [← update_rowWith, update_idem]
  refine update_eq_self_iff.2 ?_
  rw [rowWith, if_neg (by omega), List.getD_eq_default _ _ (by omega)]

section Line

variable {width : ℕ} {s₀ : Rows} (hblank : ∀ k, s₀.cursor ≤ k → s₀.row k = 32)
include hblank

/-- A line that is not longer than the row is written behind the cursor. -/
theorem write_line (line : List UInt8) : (∀ b ∈ line, Printable b) →
    s₀.cursor + line.length ≤ width →
      write (put width) s₀ line =
        ⟨s₀.above, rowWith s₀.row s₀.cursor line, s₀.cursor + line.length⟩ := by
  induction line using List.reverseRecOn with
  | nil =>
      intro _ _
      have hrow : s₀.row = rowWith s₀.row s₀.cursor [] := by
        funext k
        rw [rowWith]
        split
        · rfl
        · rename_i hk
          exact hblank k (by omega)
      rw [← hrow]
      rfl
  | append_singleton line c ih =>
      intro hprint hwidth
      obtain ⟨hline, hc⟩ := List.forall_mem_append.1 hprint
      rw [List.length_append, List.length_singleton] at hwidth
      rw [write_append, ih hline (by omega)]
      change put width _ c = _
      rw [put_printable (by exact hwidth) (hc c List.mem_cons_self), List.length_append,
        List.length_singleton, ← update_rowWith]
      rfl

/-- **A terminal with rows has room up to the end of the row**, if nothing is written after the
cursor. -/
theorem hasRoom : HasRoom (put width) s₀ (width - s₀.cursor) := by
  intro line c hline hc hroom
  have hwidth : s₀.cursor + line.length + 1 ≤ width := by omega
  have hline' : ∀ b ∈ line ++ [c], Printable b :=
    List.forall_mem_append.2 ⟨hline, List.forall_mem_singleton.2 hc⟩
  have hlength : s₀.cursor + (line ++ [c]).length = s₀.cursor + line.length + 1 := by
    rw [List.length_append, List.length_singleton, Nat.add_assoc]
  rw [write_line hblank (line ++ [c]) hline' (by omega),
    write_line hblank line hline (by omega), hlength]
  -- the character becomes a space, which is not seen
  have hspace : put width ⟨s₀.above, rowWith s₀.row s₀.cursor (line ++ [c]),
      s₀.cursor + line.length⟩ 32 =
      ⟨s₀.above, rowWith s₀.row s₀.cursor line, s₀.cursor + line.length + 1⟩ := by
    rw [put_printable hwidth (by decide)]
    exact congrArg (fun row => Rows.mk s₀.above row (s₀.cursor + line.length + 1))
      (update_rowWith_space s₀.row s₀.cursor line c)
  exact congrArg (fun s => put width s 8) hspace

end Line

end Rows

end Screen
