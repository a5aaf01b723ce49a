/-
**Reading a line from the terminal** (`earth/dev_tty.c`).

`tty_read` stores every byte that it receives in the buffer, and then decides what it was: Enter and
Ctrl+C end the line, and a backspace takes the index of the loop back by two, or by one at the start
of the line, before the loop increments it.  The index is unsigned, so that it wraps around below
zero and comes back.  A timer interrupt can call `tty_recv_intr` at any time; it leaves the receiver
alone while a line is being read.

Main definitions:

* `Egos.TtyEvent`, `Egos.received` — polls of the receiver and interrupts, and the bytes received;
* `Egos.ttyRead` — the driver;
* `Egos.edit` — the line that the bytes stand for: ordinary bytes are pushed, a backspace pops.

Main results:

* `Egos.ttyLoop_spec` — the loop, from a line that has been edited so far;
* `Egos.tty_reads_line` — **`tty_read` implements the line editor**.
-/

import Mathlib.Algebra.Group.Nat.Defs
import Mathlib.Data.List.Basic
import Mathlib.Data.Int.Basic

set_option autoImplicit false

namespace Egos

/-! ### The driver -/

/-- What happens while a line is being read: the loop polls the receiver, which is empty or has a
byte, or a timer interrupt arrives, when the receiver is empty or has a byte. -/
inductive TtyEvent
  | poll (rx : Option UInt8)
  | intr (rx : Option UInt8)

/-- The static variables of the driver. -/
structure Tty where
  c : ℤ
  isReading : Bool

/-- `uart_getc(&c)`, when the receiver is empty or has a byte. -/
def uartGetc (t : Tty) : Option UInt8 → Tty
  | none => { t with c := -1 }
  | some b => { t with c := b.toNat }

/-- `tty_recv_intr` -/
def ttyRecvIntr (t : Tty) (rx : Option UInt8) : Bool × Tty :=
  if t.isReading then (false, t) else ((uartGetc t rx).c = 3, uartGetc t rx)

/-- `buf[i] = c` -/
def setByte (buf : List UInt8) (i : ℕ) (c : UInt8) : Option (List UInt8) :=
  if i < buf.length then some (buf.set i c) else none

/-- What `tty_read` does with a byte that it has received: the buffer, the variables of the
driver, and either the return value or the index for the next round of the loop, which is a 32-bit
number. -/
def ttyByte (t : Tty) (i : ℕ) (buf : List UInt8) (b : UInt8) :
    Option (List UInt8 × Tty × (ℕ ⊕ ℕ)) := do
  let t := uartGetc t (some b)
  let buf ← setByte buf i b
  if t.c = 0x03 then
    let buf ← setByte buf 0 0
    let buf ← setByte buf i 0
    some (buf, { t with isReading := false }, .inl 0)
  else if t.c = 0x0d then
    let buf ← setByte buf i 0
    some (buf, { t with isReading := false }, .inl i)
  else if t.c = 0x7f then
    let i := (if i ≠ 0 then i + (2 ^ 32 - 2) else i + (2 ^ 32 - 1)) % 2 ^ 32
    some (buf, { t with c := 0 }, .inr ((i + 1) % 2 ^ 32))
  else some (buf, t, .inr ((i + 1) % 2 ^ 32))

/-- The loop of `tty_read`, with the index `i`: the return value, the buffer, the variables of the
driver, and the events that follow.  A store outside of the buffer has no result. -/
def ttyLoop (len : ℕ) (evs : List TtyEvent) (t : Tty) (i : ℕ) (buf : List UInt8) :
    Option (ℕ × List UInt8 × Tty × List TtyEvent) :=
  if i < len - 1 then
    match evs with
    | [] => none
    | .intr rx :: evs => ttyLoop len evs (ttyRecvIntr t rx).2 i buf
    | .poll none :: evs => ttyLoop len evs (uartGetc t none) i buf
    | .poll (some b) :: evs =>
        match ttyByte t i buf b with
        | none => none
        | some (buf, t, .inl ret) => some (ret, buf, t, evs)
        | some (buf, t, .inr i) => ttyLoop len evs t i buf
  else
    match setByte buf (len - 1) 0 with
    | none => none
    | some buf => some (len - 1, buf, { t with isReading := false }, evs)

/-- `tty_read(buf, len)` -/
def ttyRead (len : ℕ) (evs : List TtyEvent) (t : Tty) (buf : List UInt8) :
    Option (ℕ × List UInt8 × Tty × List TtyEvent) :=
  ttyLoop len evs { t with isReading := true } 0 buf

/-! ### The line editor -/

/-- The bytes that the loop receives. -/
def received : List TtyEvent → List UInt8
  | [] => []
  | .poll (some b) :: evs => b :: received evs
  | _ :: evs => received evs

/-- How a line ends. -/
inductive LineEnd
  | enter
  | ctrlC
  | full
  deriving DecidableEq

/-- **The line editor**, after the bytes of `line`: how the line ends, the line, and the bytes that
follow; nothing if the line does not end. -/
def edit (len : ℕ) : List UInt8 → List UInt8 → Option (LineEnd × List UInt8 × List UInt8)
  | _, [] => none
  | line, b :: bytes =>
      if b = 0x03 then some (.ctrlC, line, bytes)
      else if b = 0x0d then some (.enter, line, bytes)
      else if b = 0x7f then edit len line.dropLast bytes
      else if line.length + 1 = len - 1 then some (.full, line ++ [b], bytes)
      else edit len (line ++ [b]) bytes

/-! ### The loop -/

section Loop

variable {len : ℕ}

theorem setByte_append (line : List UInt8) (a c : UInt8) (tail : List UInt8) :
    setByte (line ++ a :: tail) line.length c = some (line ++ c :: tail) := by
  rw [setByte, if_pos (by rw [List.length_append, List.length_cons]; omega),
    List.set_append_right _ _ le_rfl, Nat.sub_self, List.set_cons_zero]

/-- Comparing the variable `c` with a byte. -/
theorem uartGetc_c_eq_iff (t : Tty) (b d : UInt8) : (uartGetc t (some b)).c = d.toNat ↔ b = d := by
  rw [uartGetc, Int.ofNat_inj, UInt8.toNat_inj]

/-- What `tty_read` returns for a line. -/
structure Reads (len : ℕ) (evs : List TtyEvent) (e : LineEnd) (line rest : List UInt8)
    (r : ℕ × List UInt8 × Tty × List TtyEvent) : Prop where
  ret : r.1 = if e = .ctrlC then 0 else line.length
  buf : ∃ tail, r.2.1 = (if e = .ctrlC then [] else line) ++ 0 :: tail
  length : r.2.1.length = len
  done : r.2.2.1.isReading = false
  suffix : r.2.2.2 <:+ evs
  rest : received r.2.2.2 = rest

theorem Reads.cons {evs : List TtyEvent} {e : LineEnd} {line rest : List UInt8}
    {r : ℕ × List UInt8 × Tty × List TtyEvent} (h : Reads len evs e line rest r) (ev : TtyEvent) :
    Reads len (ev :: evs) e line rest r :=
  { h with suffix := h.suffix.trans (List.suffix_cons ev evs) }

/-- A full line ends the loop. -/
theorem ttyLoop_full (evs : List TtyEvent) (t : Tty) {line : List UInt8} (a : UInt8)
    (hline : line.length = len - 1) :
    ttyLoop len evs t line.length (line ++ [a]) =
      some (line.length, line ++ [0], { t with isReading := false }, evs) := by
  rw [ttyLoop.eq_def, if_neg (by omega), ← hline, setByte_append]

section Byte

variable (t : Tty) (line : List UInt8) (a : UInt8) (tail : List UInt8)

/-- Ctrl+C leaves an empty string. -/
theorem ttyByte_ctrlC :
    ∃ tail', ttyByte t line.length (line ++ a :: tail) 0x03 =
        some (0 :: tail', ⟨0x03, false⟩, .inl 0) ∧
      (0 :: tail').length = (line ++ a :: tail).length := by
  cases line with
  | nil => exact ⟨tail, rfl, rfl⟩
  | cons d line =>
      refine ⟨line ++ 0 :: tail, ?_, by simp⟩
      have h0 : setByte (d :: line ++ 0x03 :: tail) 0 0 = some (0 :: line ++ 0x03 :: tail) := rfl
      have hlength : (d :: line).length = (0 :: line : List UInt8).length := rfl
      have h3 : (uartGetc t (some 0x03)).c = 0x03 := rfl
      rw [ttyByte, setByte_append, Option.bind_eq_bind, Option.bind_some,
        if_pos h3, h0, Option.bind_some, hlength, setByte_append]
      rfl

/-- Enter closes the line. -/
theorem ttyByte_enter :
    ttyByte t line.length (line ++ a :: tail) 0x0d =
      some (line ++ 0 :: tail, ⟨0x0d, false⟩, .inl line.length) := by
  have h3 : ¬ (uartGetc t (some 0x0d)).c = 0x03 := fun h =>
    absurd ((uartGetc_c_eq_iff t 0x0d 0x03).1 h) (by decide)
  have hd : (uartGetc t (some 0x0d)).c = 0x0d := rfl
  rw [ttyByte, setByte_append, Option.bind_eq_bind, Option.bind_some, if_neg h3,
    if_pos hd, setByte_append]
  rfl

/-- **A backspace takes the index back**, and leaves it at the start of the line.  The last byte of
the line is left in the buffer, behind the line. -/
theorem ttyByte_backspace (hline : line.length < 2 ^ 32) :
    ∃ tail', ttyByte t line.length (line ++ a :: tail) 0x7f =
        some (line.dropLast ++ tail', ⟨0, t.isReading⟩, .inr line.dropLast.length) ∧
      (line.dropLast ++ tail').length = (line ++ a :: tail).length := by
  obtain ⟨tail', htail⟩ := (List.dropLast_prefix line).trans
    (List.prefix_append line (0x7f :: tail))
  refine ⟨tail', ?_, by rw [htail]; simp only [List.length_append, List.length_cons]⟩
  have hidx : ((if line.length ≠ 0 then line.length + (2 ^ 32 - 2) else
      line.length + (2 ^ 32 - 1)) % 2 ^ 32 + 1) % 2 ^ 32 = line.dropLast.length := by
    rw [List.length_dropLast]
    split
    · omega
    · omega
  have h3 : ¬ (uartGetc t (some 0x7f)).c = 0x03 := fun h =>
    absurd ((uartGetc_c_eq_iff t 0x7f 0x03).1 h) (by decide)
  have hd : ¬ (uartGetc t (some 0x7f)).c = 0x0d := fun h =>
    absurd ((uartGetc_c_eq_iff t 0x7f 0x0d).1 h) (by decide)
  have h7 : (uartGetc t (some 0x7f)).c = 0x7f := rfl
  rw [ttyByte, setByte_append, Option.bind_eq_bind, Option.bind_some, if_neg h3, if_neg hd,
    if_pos h7, htail]
  simp only [hidx]
  rfl

/-- Any other byte is stored. -/
theorem ttyByte_push {b : UInt8} (h3 : b ≠ 0x03) (hd : b ≠ 0x0d) (h7 : b ≠ 0x7f)
    (hline : line.length + 1 < 2 ^ 32) :
    ttyByte t line.length (line ++ a :: tail) b =
      some (line ++ [b] ++ tail, ⟨b.toNat, t.isReading⟩, .inr (line ++ [b]).length) := by
  have h3' : ¬ (uartGetc t (some b)).c = 0x03 := fun h => h3 ((uartGetc_c_eq_iff t b 0x03).1 h)
  have hd' : ¬ (uartGetc t (some b)).c = 0x0d := fun h => hd ((uartGetc_c_eq_iff t b 0x0d).1 h)
  have h7' : ¬ (uartGetc t (some b)).c = 0x7f := fun h => h7 ((uartGetc_c_eq_iff t b 0x7f).1 h)
  rw [ttyByte, setByte_append, Option.bind_eq_bind, Option.bind_some, if_neg h3', if_neg hd',
    if_neg h7', Nat.mod_eq_of_lt hline, List.length_append, List.length_singleton,
    List.append_assoc, List.singleton_append]
  rfl

end Byte

/-- While the line is not full, there is a byte behind it. -/
theorem exists_behind {line tail : List UInt8} (hline : line.length < len - 1)
    (hsize : (line ++ tail).length = len) : ∃ a tail', tail = a :: tail' := by
  refine List.exists_cons_of_ne_nil ?_
  rintro rfl
  rw [List.append_nil] at hsize
  omega

/-- **The loop, from a line that has been edited so far.**  The line is at the start of the buffer,
and the index is its length. -/
theorem ttyLoop_spec (hlen : len < 2 ^ 32) (evs : List TtyEvent) :
    ∀ (t : Tty) (line tail : List UInt8), t.isReading = true → line.length < len - 1 →
      (line ++ tail).length = len →
      ∀ e line' rest, edit len line (received evs) = some (e, line', rest) →
        ∃ r, ttyLoop len evs t line.length (line ++ tail) = some r ∧
          Reads len evs e line' rest r := by
  induction evs with
  | nil =>
      intro t line tail _ _ _ e line' rest hedit
      exact absurd hedit (by simp [received, edit])
  | cons ev evs ih =>
      intro t line tail ht hline hsize e line' rest hedit
      rw [ttyLoop.eq_def, if_pos hline]
      cases ev with
      | intr rx =>
          -- the interrupt leaves the driver alone
          have hintr : (ttyRecvIntr t rx).2 = t := by rw [ttyRecvIntr, if_pos ht]
          obtain ⟨r, hrun, hr⟩ := ih t line tail ht hline hsize e line' rest hedit
          exact ⟨r, (congrArg (ttyLoop len evs · _ _) hintr).trans hrun, hr.cons _⟩
      | poll rx =>
          cases rx with
          | none =>
              obtain ⟨r, hrun, hr⟩ :=
                ih (uartGetc t none) line tail ht hline hsize e line' rest hedit
              exact ⟨r, hrun, hr.cons _⟩
          | some b =>
              obtain ⟨a, tail, rfl⟩ := exists_behind hline hsize
              have hsuffix := List.suffix_cons (TtyEvent.poll (some b)) evs
              rw [received, edit] at hedit
              by_cases h3 : b = 0x03
              · subst h3
                rw [if_pos rfl] at hedit
                obtain ⟨rfl, rfl, rfl⟩ : .ctrlC = e ∧ line = line' ∧ received evs = rest := by
                  simpa using hedit
                obtain ⟨tail', hbyte, hlength⟩ := ttyByte_ctrlC t line a tail
                simp only [hbyte]
                exact ⟨_, rfl, rfl, ⟨tail', rfl⟩, hlength.trans hsize, rfl, hsuffix, rfl⟩
              · rw [if_neg h3] at hedit
                by_cases hd : b = 0x0d
                · subst hd
                  rw [if_pos rfl] at hedit
                  obtain ⟨rfl, rfl, rfl⟩ : .enter = e ∧ line = line' ∧ received evs = rest := by
                    simpa using hedit
                  simp only [ttyByte_enter]
                  refine ⟨_, rfl, rfl, ⟨tail, rfl⟩, ?_, rfl, hsuffix, rfl⟩
                  rwa [List.length_append] at hsize ⊢
                · rw [if_neg hd] at hedit
                  by_cases h7 : b = 0x7f
                  · subst h7
                    rw [if_pos rfl] at hedit
                    obtain ⟨tail', hbyte, hlength⟩ :=
                      ttyByte_backspace t line a tail (by omega)
                    simp only [hbyte]
                    obtain ⟨r, hrun, hr⟩ := ih ⟨0, t.isReading⟩ line.dropLast tail' ht
                      (by rw [List.length_dropLast]; omega) (hlength.trans hsize) e line' rest hedit
                    exact ⟨r, hrun, hr.cons _⟩
                  · rw [if_neg h7] at hedit
                    simp only [ttyByte_push t line a tail h3 hd h7 (by omega)]
                    have hlength : (line ++ [b]).length = line.length + 1 := by
                      rw [List.length_append, List.length_singleton]
                    rw [List.length_append, List.length_cons] at hsize
                    by_cases hfull : line.length + 1 = len - 1
                    · rw [if_pos hfull] at hedit
                      obtain ⟨rfl, rfl, rfl⟩ : .full = e ∧ line ++ [b] = line' ∧
                          received evs = rest := by simpa using hedit
                      obtain ⟨d, rfl⟩ : ∃ d, tail = [d] := List.length_eq_one_iff.1 (by omega)
                      rw [ttyLoop_full evs _ d (hlength.trans hfull)]
                      refine ⟨_, rfl, rfl, ⟨[], rfl⟩, ?_, rfl, hsuffix, rfl⟩
                      rw [List.length_append, List.length_singleton, hlength]
                      omega
                    · rw [if_neg hfull] at hedit
                      obtain ⟨r, hrun, hr⟩ := ih ⟨b.toNat, t.isReading⟩ (line ++ [b]) tail ht
                        (by omega) (by rw [List.length_append]; omega) e line' rest hedit
                      exact ⟨r, hrun, hr.cons _⟩

end Loop

/-- **`tty_read` implements the line editor.**  If the bytes that are received contain the end of
the line, `tty_read` returns, with no store outside of the buffer: it consumes the bytes up to the
end of the line, the buffer holds the line and a null byte, or the empty string after Ctrl+C, the
return value is the length of that string, and `is_reading` is 0.  This is so for all timings of the
polls and interrupts. -/
theorem tty_reads_line (len : ℕ) (hlen : 2 ≤ len) (hmax : len < 2 ^ 32) (buf : List UInt8)
    (hbuf : buf.length = len) (t : Tty) (evs : List TtyEvent) (e : LineEnd) (line rest : List UInt8)
    (hedit : edit len [] (received evs) = some (e, line, rest)) :
    ∃ ret buf' t' evs', ttyRead len evs t buf = some (ret, buf', t', evs') ∧
      evs' <:+ evs ∧ received evs' = rest ∧ t'.isReading = false ∧ buf'.length = len ∧
      (e = .ctrlC → ret = 0 ∧ ∃ tail, buf' = 0 :: tail) ∧
      (e ≠ .ctrlC → ret = line.length ∧ ∃ tail, buf' = line ++ 0 :: tail) := by
  obtain ⟨⟨ret, buf', t', evs'⟩, hrun, hr⟩ := ttyLoop_spec hmax evs
    { t with isReading := true } [] buf rfl (by rw [List.length_nil]; omega) hbuf e line rest hedit
  have hret := hr.ret
  have hstr := hr.buf
  refine ⟨ret, buf', t', evs', hrun, hr.suffix, hr.rest, hr.done, hr.length, fun he => ?_,
    fun he => ?_⟩
  · rw [if_pos he] at hret hstr
    exact ⟨hret, hstr⟩
  · rw [if_neg he] at hret hstr
    exact ⟨hret, hstr⟩

/-- The bytes `a`, backspace, backspace, `b`, Enter, `c`, with an interrupt. -/
theorem tty_reads_line_edited :
    ∃ buf' t' evs', ttyRead 4 [.poll (some 97), .intr (some 127), .poll (some 127), .poll none,
        .poll (some 127), .poll (some 98), .poll (some 13), .poll (some 99)] ⟨0, false⟩
      [1, 2, 3, 4] =
      some (1, buf', t', evs') ∧ received evs' = [99] ∧ ∃ tail, buf' = 98 :: 0 :: tail := by
  obtain ⟨ret, buf', t', evs', hrun, -, hrest, -, -, -, hline⟩ := tty_reads_line 4 (by decide)
    (by decide) [1, 2, 3, 4] rfl ⟨0, false⟩ [.poll (some 97), .intr (some 127), .poll (some 127),
      .poll none, .poll (some 127), .poll (some 98), .poll (some 13), .poll (some 99)]
    .enter [98] [99] (by decide)
  obtain ⟨rfl, hbuf⟩ := hline (by decide)
  exact ⟨buf', t', evs', hrun, hrest, hbuf⟩

end Egos
