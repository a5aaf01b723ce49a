/-
**What the terminal shows while a line is typed** (`earth/dev_tty.c`).

`tty_read` has no other means to keep the line on the screen in step with the line in the buffer
than to print: an ordinary byte is printed as it is, a backspace is answered by `"\b \b"`, unless
the line is empty, and the end of the line by `"\r\n"`.  This module adds what is printed to the
model of the driver, and follows it on a terminal.  The terminal is not part of the system; what is
assumed of it is that the line has room in its row, where a character can be erased.

Main definitions:

* `Egos.ttyEcho`, `Egos.ttyOutput` — what `tty_read` prints for a byte, and in a whole run;
* `Egos.editEcho`, `Egos.editing` — what the line editor prints, and the line that it has so far;
* `Egos.longest` — the length of the longest line that there is in between.

Main results:

* `Egos.ttyOutput_eq` — the driver prints what the line editor prints, for all timings;
* `Egos.screen_shows_line` — **the terminal is as if the line in the buffer had been written to
  it**, at any time.
-/

import Egos.CString
import Egos.Screen
import Egos.Tty

set_option autoImplicit false

namespace Egos

/-! ### What the driver prints -/

/-- What `tty_read` prints for a byte that it has received, with the index `i`.  After a backspace,
the variable `c` is 0, and `if (c) printf("%c", c)` prints nothing more. -/
def ttyEcho (i : ℕ) (b : UInt8) : List UInt8 :=
  if b = 0x03 ∨ b = 0x0d then [13, 10]
  else if b = 0x7f then (if i ≠ 0 then [8, 32, 8] else [])
  else if b ≠ 0 then [b] else []

/-- What the loop of `tty_read` prints, until it ends or until there are no more events. -/
def ttyOutput (len : ℕ) (evs : List TtyEvent) (t : Tty) (i : ℕ) (buf : List UInt8) : List UInt8 :=
  if i < len - 1 then
    match evs with
    | [] => []
    | .intr rx :: evs => ttyOutput len evs (ttyRecvIntr t rx).2 i buf
    | .poll none :: evs => ttyOutput len evs (uartGetc t none) i buf
    | .poll (some b) :: evs =>
        match ttyByte t i buf b with
        | none => []
        | some (_, _, .inl _) => ttyEcho i b
        | some (buf, t, .inr j) => ttyEcho i b ++ ttyOutput len evs t j buf
  else []

/-- What `tty_read(buf, len)` prints. -/
def ttyReadOutput (len : ℕ) (evs : List TtyEvent) (t : Tty) (buf : List UInt8) : List UInt8 :=
  ttyOutput len evs { t with isReading := true } 0 buf

/-! ### What the line editor prints -/

/-- What the line editor prints, after the bytes of `line`. -/
def editEcho (len : ℕ) : List UInt8 → List UInt8 → List UInt8
  | _, [] => []
  | line, b :: bytes =>
      if b = 0x03 ∨ b = 0x0d then [13, 10]
      else if b = 0x7f then
        (if line ≠ [] then [8, 32, 8] else []) ++ editEcho len line.dropLast bytes
      else if line.length + 1 = len - 1 then (if b ≠ 0 then [b] else [])
      else (if b ≠ 0 then [b] else []) ++ editEcho len (line ++ [b]) bytes

/-- The line that the line editor has, while it has not ended. -/
def editing : List UInt8 → List UInt8 → List UInt8
  | line, [] => line
  | line, b :: bytes => editing (if b = 0x7f then line.dropLast else line ++ [b]) bytes

/-- The length of the longest line that is edited until the end. -/
def longest (len : ℕ) : List UInt8 → List UInt8 → ℕ
  | line, [] => line.length
  | line, b :: bytes =>
      if b = 0x03 ∨ b = 0x0d then line.length
      else if b = 0x7f then max line.length (longest len line.dropLast bytes)
      else if line.length + 1 = len - 1 then line.length + 1
      else longest len (line ++ [b]) bytes

section Loop

variable {len : ℕ}

theorem ttyOutput_full (evs : List TtyEvent) (t : Tty) (i : ℕ) (buf : List UInt8)
    (hi : ¬ i < len - 1) : ttyOutput len evs t i buf = [] := by
  rw [ttyOutput.eq_def, if_neg hi]

/-- **The driver prints what the line editor prints**, whenever it polls and is interrupted. -/
theorem ttyOutput_eq (hlen : len < 2 ^ 32) (evs : List TtyEvent) :
    ∀ (t : Tty) (line tail : List UInt8), t.isReading = true → line.length < len - 1 →
      (line ++ tail).length = len →
      ttyOutput len evs t line.length (line ++ tail) = editEcho len line (received evs) := by
  induction evs with
  | nil =>
      intro t line tail _ hline _
      rw [ttyOutput.eq_def, if_pos hline, received, editEcho]
  | cons ev evs ih =>
      intro t line tail ht hline hsize
      rw [ttyOutput.eq_def, if_pos hline]
      cases ev with
      | intr rx =>
          have hintr : (ttyRecvIntr t rx).2 = t := by rw [ttyRecvIntr, if_pos ht]
          simp only [hintr]
          exact ih t line tail ht hline hsize
      | poll rx =>
          cases rx with
          | none => exact ih (uartGetc t none) line tail ht hline hsize
          | some b =>
              obtain ⟨a, tail, rfl⟩ := exists_behind hline hsize
              rw [received, editEcho]
              by_cases h3 : b = 0x03
              · subst h3
                obtain ⟨tail', hbyte, -⟩ := ttyByte_ctrlC t line a tail
                simp only [hbyte]
                rfl
              by_cases hd : b = 0x0d
              · subst hd
                simp only [ttyByte_enter]
                rfl
              have hend : ¬ (b = 0x03 ∨ b = 0x0d) := not_or.2 ⟨h3, hd⟩
              rw [if_neg hend]
              by_cases h7 : b = 0x7f
              · subst h7
                obtain ⟨tail', hbyte, hlength⟩ := ttyByte_backspace t line a tail (by omega)
                simp only [hbyte]
                rw [ih ⟨0, t.isReading⟩ line.dropLast tail' ht
                  (by rw [List.length_dropLast]; omega) (hlength.trans hsize), ttyEcho,
                  if_neg hend, if_pos rfl, if_pos trivial]
                simp only [ne_eq, List.length_eq_zero_iff]
              · simp only [ttyByte_push t line a tail h3 hd h7 (by omega)]
                have hlength : (line ++ [b]).length = line.length + 1 := by
                  rw [List.length_append, List.length_singleton]
                rw [List.length_append, List.length_cons] at hsize
                rw [ttyEcho, if_neg hend, if_neg h7, if_neg h7]
                by_cases hfull : line.length + 1 = len - 1
                · rw [if_pos hfull, ttyOutput_full evs _ _ _ (by omega), List.append_nil]
                · rw [if_neg hfull, ih ⟨b.toNat, t.isReading⟩ (line ++ [b]) tail ht (by omega)
                    (by rw [List.length_append]; omega)]

/-! ### The terminal -/

/-- A byte that the keyboard sends: a character that takes one place, or one of the keys to which
the driver reacts. -/
def IsKey (b : UInt8) : Prop := Screen.Printable b ∨ b = 0x03 ∨ b = 0x0d ∨ b = 0x7f

instance (b : UInt8) : Decidable (IsKey b) := inferInstanceAs (Decidable (_ ∨ _ ∨ _ ∨ _))

/-- What is written at the end of a line: it leaves its row, unless it is full. -/
def lineEnd : LineEnd → List UInt8
  | .full => []
  | _ => [13, 10]

variable (len) in
/-- **The terminal follows the line editor**: it is as if the line had been written to it, both
while the line is edited and after it has ended. -/
theorem editEcho_shows {S : Type*} {put : S → UInt8 → S} {s₀ : S} {room : ℕ}
    (hput : Screen.HasRoom put s₀ room) (bytes : List UInt8) :
    ∀ line, (∀ b ∈ line, Screen.Printable b) → (∀ b ∈ bytes, IsKey b) →
      longest len line bytes ≤ room →
      (edit len line bytes = none →
        Screen.write put (Screen.write put s₀ line) (editEcho len line bytes) =
          Screen.write put s₀ (editing line bytes)) ∧
      ∀ e line' rest, edit len line bytes = some (e, line', rest) →
        Screen.write put (Screen.write put s₀ line) (editEcho len line bytes) =
          Screen.write put s₀ (line' ++ lineEnd e) := by
  induction bytes with
  | nil =>
      intro line _ _ _
      refine ⟨fun _ => rfl, fun e line' rest hedit => ?_⟩
      exact absurd hedit (by simp [edit])
  | cons b bytes ih =>
      intro line hline hkeys hroom
      obtain ⟨hb, hbytes⟩ := List.forall_mem_cons.1 hkeys
      rw [longest] at hroom
      rw [edit, editEcho, editing]
      by_cases h3 : b = 0x03
      · rw [if_pos h3, if_pos (Or.inl h3)]
        refine ⟨fun h => absurd h (by simp), fun e line' rest hedit => ?_⟩
        obtain ⟨rfl, rfl, -⟩ : .ctrlC = e ∧ line = line' ∧ bytes = rest := by simpa using hedit
        exact (Screen.write_append put s₀ line [13, 10]).symm
      by_cases hd : b = 0x0d
      · rw [if_neg h3, if_pos hd, if_pos (Or.inr hd)]
        refine ⟨fun h => absurd h (by simp), fun e line' rest hedit => ?_⟩
        obtain ⟨rfl, rfl, -⟩ : .enter = e ∧ line = line' ∧ bytes = rest := by simpa using hedit
        exact (Screen.write_append put s₀ line [13, 10]).symm
      rw [if_neg (not_or.2 ⟨h3, hd⟩)] at hroom
      rw [if_neg h3, if_neg hd, if_neg (not_or.2 ⟨h3, hd⟩)]
      by_cases h7 : b = 0x7f
      · rw [if_pos h7] at hroom
        rw [if_pos h7, if_pos h7, if_pos h7, Screen.write_append]
        have hdrop := ih line.dropLast (fun c hc => hline c (List.mem_of_mem_dropLast hc)) hbytes
          (by omega)
        rcases List.eq_nil_or_concat line with rfl | ⟨line', c, rfl⟩
        · exact hdrop
        · -- the last character of the line is erased
          rw [List.concat_eq_append] at hline hroom hdrop ⊢
          obtain ⟨hline', hc⟩ := List.forall_mem_append.1 hline
          have hlt : line'.length < room := by
            rw [List.length_append, List.length_singleton] at hroom
            omega
          rw [if_pos (List.append_ne_nil_of_right_ne_nil _ (List.cons_ne_nil _ _)),
            hput line' c hline' (hc c List.mem_cons_self) hlt]
          rw [List.dropLast_concat] at hdrop ⊢
          exact hdrop
      · rw [if_neg h7] at hroom
        rw [if_neg h7, if_neg h7, if_neg h7]
        have hprint : Screen.Printable b := by
          rcases hb with h | h | h | h
          · exact h
          · exact absurd h h3
          · exact absurd h hd
          · exact absurd h h7
        have hb0 : b ≠ 0 := by
          rintro rfl
          exact absurd hprint (by decide)
        rw [if_pos hb0]
        by_cases hfull : line.length + 1 = len - 1
        · rw [if_pos hfull, if_pos hfull]
          refine ⟨fun h => absurd h (by simp), fun e line' rest hedit => ?_⟩
          obtain ⟨rfl, rfl, -⟩ : .full = e ∧ line ++ [b] = line' ∧ bytes = rest := by
            simpa using hedit
          rw [lineEnd, List.append_nil, Screen.write_append]
        · rw [if_neg hfull] at hroom
          rw [if_neg hfull, if_neg hfull, Screen.write_append, ← Screen.write_append put s₀]
          exact ih (line ++ [b])
            (List.forall_mem_append.2 ⟨hline, List.forall_mem_singleton.2 hprint⟩) hbytes hroom

end Loop

/-- **The terminal shows the line that is in the buffer.**  Let a terminal have room in its row for
the lines that are edited.  For all keys that are pressed and all timings of the polls and
interrupts, what `tty_read` prints leaves the terminal as if the line that has been edited so far
had been written to it.  When the line has ended, it is as if the line and the end of a line had
been written, and the buffer holds that line, unless it was given up by Ctrl+C; a line that is full
ends in its row. -/
theorem screen_shows_line {S : Type*} (put : S → UInt8 → S) (s₀ : S) (room : ℕ)
    (hput : Screen.HasRoom put s₀ room) (len : ℕ) (hlen : 2 ≤ len) (hmax : len < 2 ^ 32)
    (buf : List UInt8) (hbuf : buf.length = len) (t : Tty) (evs : List TtyEvent)
    (hkeys : ∀ b ∈ received evs, IsKey b) (hroom : longest len [] (received evs) ≤ room) :
    (edit len [] (received evs) = none →
      Screen.write put s₀ (ttyReadOutput len evs t buf) =
        Screen.write put s₀ (editing [] (received evs))) ∧
    ∀ e line rest, edit len [] (received evs) = some (e, line, rest) →
      (∃ ret buf' t' evs', ttyRead len evs t buf = some (ret, buf', t', evs') ∧
        ∃ tail, buf' = (if e = .ctrlC then [] else line) ++ 0 :: tail) ∧
      Screen.write put s₀ (ttyReadOutput len evs t buf) =
        Screen.write put s₀ (line ++ lineEnd e) := by
  have hstart : ([] : List UInt8).length < len - 1 := by
    rw [List.length_nil]
    omega
  have hout : ttyReadOutput len evs t buf = editEcho len [] (received evs) :=
    ttyOutput_eq hmax evs { t with isReading := true } [] buf rfl hstart hbuf
  obtain ⟨hnone, hsome⟩ := editEcho_shows len hput (received evs) []
    (List.forall_mem_nil _) hkeys hroom
  rw [hout]
  refine ⟨hnone, fun e line rest hedit => ⟨?_, hsome e line rest hedit⟩⟩
  obtain ⟨⟨ret, buf', t', evs'⟩, hrun, hr⟩ := ttyLoop_spec hmax evs
    { t with isReading := true } [] buf rfl hstart hbuf e line rest hedit
  exact ⟨ret, buf', t', evs', hrun, hr.buf⟩

/-- On a terminal with rows of 80 characters, after the prompt `> `, the keys `a`, `b`, backspace,
`c` and Enter leave `> ac` in the row. -/
theorem screen_shows_line_edited :
    ∃ s : Screen.Rows, s = Screen.write (Screen.Rows.put 80)
        ⟨[], Screen.Rows.rowWith Screen.Rows.blank 0 [62, 32], 2⟩ (ttyReadOutput 8
        [.poll (some 97), .intr none, .poll (some 98), .poll (some 127), .poll none,
          .poll (some 99), .poll (some 13)] ⟨0, false⟩ (List.replicate 8 0)) ∧
      s.above.map (fun row => (List.range 6).map row) = [[62, 32, 97, 99, 32, 32]] ∧
      s.cursor = 0 := by
  have hblank : ∀ k, 2 ≤ k → Screen.Rows.rowWith Screen.Rows.blank 0 [62, 32] k = 32 := by
    intro k hk
    rw [Screen.Rows.rowWith, if_neg (Nat.not_lt_zero k), List.getD_eq_default _ _ hk]
  obtain ⟨-, hsome⟩ := screen_shows_line (Screen.Rows.put 80)
    ⟨[], Screen.Rows.rowWith Screen.Rows.blank 0 [62, 32], 2⟩ 78 (Screen.Rows.hasRoom hblank)
    8 (by decide) (by decide) (List.replicate 8 0) (by decide) ⟨0, false⟩
    [.poll (some 97), .intr none, .poll (some 98), .poll (some 127), .poll none, .poll (some 99),
      .poll (some 13)] (by decide +kernel) (by decide)
  obtain ⟨-, hrow⟩ := hsome .enter [97, 99] [] (by decide)
  refine ⟨_, rfl, ?_⟩
  rw [hrow]
  exact ⟨by decide, rfl⟩

end Egos
