/-
**What ls prints** (`apps/user/ls.c`).

`ls` reads the block of the directory and replaces, from left to right, every digit after a space by
a space.  As the characters before are those that it has already replaced, the digits of a number go
one after the other.  A name that starts with a digit comes after a space, too, unless it is the
first one.

Main definitions:

* `Egos.lsLoop`, `Egos.lsMain` — the code;
* `Egos.hideDigits` — the loop, on the characters;
* `Egos.hiddenText` — the text of a directory without the inode numbers.

Main results:

* `Egos.lsMain_eq` — what is printed;
* `Egos.ls_hides_iff` — **when `ls` hides the inode numbers and nothing else**.
-/

import Egos.Directory

set_option autoImplicit false

namespace Egos

open CString

/-! ### The code -/

/-- What is printed. -/
inductive LsOutput
  | info (msg : String)
  | text (bytes : List UInt8)
  deriving DecidableEq

/-- The body of the loop of `main`. -/
def lsStep (buf : List UInt8) (i : ℕ) : List UInt8 :=
  if buf.getD (i - 1) 0 = space ∧ isdigit (buf.getD i 0) then buf.set i space else buf

/-- The loop of `main`, of which at most `fuel` iterations are run. -/
def lsLoop (buf : List UInt8) (i : ℕ) : ℕ → Option (List UInt8)
  | 0 => none
  | fuel + 1 => do
      let len ← strlen buf
      if i < len then lsLoop (lsStep buf i) (i + 1) fuel else return buf

/-- `main`, with the block of the working directory: what is printed, and the result. -/
def lsMain (argc : ℕ) (block : Block) : Option (LsOutput × ℤ) :=
  if argc > 1 then some (.info "ls: ls with args not implemented", -1)
  else (lsLoop block.bytes 1 512).map fun buf => (.text (str buf ++ chars ['\r', '\n']), 0)

/-! ### The characters -/

/-- The characters after `p`, with the digits after a space replaced. -/
def hideDigits : UInt8 → List UInt8 → List UInt8
  | _, [] => []
  | p, c :: s =>
      let c' := if p = space ∧ isdigit c then space else c
      c' :: hideDigits c' s

theorem hideDigits_cons (p c : UInt8) (s : List UInt8) :
    hideDigits p (c :: s) = (if p = space ∧ isdigit c then space else c) ::
      hideDigits (if p = space ∧ isdigit c then space else c) s := rfl

/-- After a character that is not a space, a word stays as it is. -/
theorem hideDigits_word {w : List UInt8} (hw : space ∉ w) {p : UInt8} (hp : p ≠ space)
    (t : List UInt8) : ∃ q, q ≠ space ∧ hideDigits p (w ++ t) = w ++ hideDigits q t := by
  induction w generalizing p with
  | nil => exact ⟨p, hp, rfl⟩
  | cons c w ih =>
      obtain ⟨hc, hrest⟩ := List.ne_and_not_mem_of_not_mem_cons hw
      obtain ⟨q, hq, heq⟩ := ih hrest hc.symm
      refine ⟨q, hq, ?_⟩
      rw [List.cons_append, hideDigits_cons, if_neg fun h => hp h.1, heq]
      rfl

/-- Spaces stay as they are. -/
theorem hideDigits_spaces (n : ℕ) (t : List UInt8) (p : UInt8) :
    hideDigits p (List.replicate (n + 1) space ++ t) =
      List.replicate (n + 1) space ++ hideDigits space t := by
  induction n generalizing p with
  | zero =>
      rw [List.replicate_one, List.singleton_append, hideDigits_cons,
        if_neg fun h => absurd h.2 (by decide)]
      rfl
  | succ n ih =>
      rw [List.replicate_succ, List.cons_append, hideDigits_cons,
        if_neg fun h => absurd h.2 (by decide), ih]
      rfl

/-- After a space, **every digit of a number is replaced**: the one before it already is. -/
theorem hideDigits_number {w : List UInt8} (hw : ∀ c ∈ w, isdigit c = true) (t : List UInt8) :
    hideDigits space (w ++ t) = List.replicate w.length space ++ hideDigits space t := by
  induction w with
  | nil => rfl
  | cons c w ih =>
      rw [List.cons_append, hideDigits_cons, if_pos ⟨rfl, hw c List.mem_cons_self⟩,
        ih fun d hd => hw d (List.mem_cons_of_mem c hd)]
      rfl

theorem zero_notMem_hideDigits {s : List UInt8} (hs : 0 ∉ s) (p : UInt8) : 0 ∉ hideDigits p s := by
  induction s generalizing p with
  | nil => exact List.not_mem_nil
  | cons c s ih =>
      obtain ⟨hc, hrest⟩ := List.ne_and_not_mem_of_not_mem_cons hs
      rw [hideDigits_cons]
      refine List.not_mem_cons_of_ne_of_not_mem ?_ (ih hrest _)
      split
      · decide
      · exact hc

/-- **The loop** replaces the digits in the characters that it has not come to yet. -/
theorem lsLoop_eq {rest : List UInt8} (s : List UInt8) :
    ∀ (pre : List UInt8) (p : UInt8) (fuel : ℕ), 0 ∉ pre ++ p :: s → s.length < fuel →
      lsLoop (pre ++ p :: (s ++ 0 :: rest)) (pre.length + 1) fuel =
        some (pre ++ p :: (hideDigits p s ++ 0 :: rest)) := by
  induction s with
  | nil =>
      intro pre p fuel hnul hfuel
      obtain ⟨fuel, rfl⟩ : ∃ k, fuel = k + 1 := ⟨fuel - 1, by omega⟩
      have hlen : strlen (pre ++ p :: ([] ++ 0 :: rest)) = some (pre.length + 1) := by
        have h := strlen_append hnul rest
        simpa using h
      rw [lsLoop, hlen, Option.bind_eq_bind, Option.bind_some, if_neg (by omega)]
      rfl
  | cons c s ih =>
      intro pre p fuel hnul hfuel
      obtain ⟨fuel, rfl⟩ : ∃ k, fuel = k + 1 := ⟨fuel - 1, by omega⟩
      have hlen : strlen (pre ++ p :: (c :: s ++ 0 :: rest)) =
          some (pre.length + (s.length + 2)) := by
        have h := strlen_append hnul rest
        simpa using h
      have hprev : (pre ++ p :: (c :: s ++ 0 :: rest)).getD (pre.length + 1 - 1) 0 = p := by
        simp [List.getD_eq_getElem?_getD]
      have hcur : (pre ++ p :: (c :: s ++ 0 :: rest)).getD (pre.length + 1) 0 = c := by
        simp [List.getD_eq_getElem?_getD]
      have hstep : lsStep (pre ++ p :: (c :: s ++ 0 :: rest)) (pre.length + 1) =
          pre ++ [p] ++ (if p = space ∧ isdigit c then space else c) :: (s ++ 0 :: rest) := by
        rw [lsStep, hprev, hcur]
        split
        · simp
        · simp
      rw [lsLoop, hlen, Option.bind_eq_bind, Option.bind_some, if_pos (by omega), hstep]
      have hrest := ih (pre ++ [p]) (if p = space ∧ isdigit c then space else c) fuel ?_
        (by rw [List.length_cons] at hfuel; omega)
      · rw [hideDigits_cons]
        simpa using hrest
      · -- No null byte is stored.
        have hc : 0 ∉ pre ++ [p] ++ c :: s := by simpa using hnul
        split
        · simp only [List.mem_append, List.mem_cons] at hc ⊢
          exact fun h => hc (h.imp_right fun h => h.imp_left fun h0 => absurd h0 (by decide))
        · exact hc

/-- **What is printed**: the characters of the block, with the digits after a space replaced. -/
theorem lsMain_eq {argc : ℕ} (hargc : argc ≤ 1) {s : List UInt8} (hnul : 0 ∉ s)
    (hlen : s.length < 512) {block : Block}
    (hblock : block.bytes = s ++ List.replicate (512 - s.length) 0) :
    lsMain argc block = some (.text (hideDigits 0 s ++ chars ['\r', '\n']), 0) := by
  obtain ⟨n, hn⟩ : ∃ n, 512 - s.length = n + 1 := ⟨511 - s.length, by omega⟩
  have hbytes : block.bytes = s ++ 0 :: List.replicate n 0 := by
    rw [hblock, hn, List.replicate_succ]
  have hloop : lsLoop block.bytes 1 512 = some (hideDigits 0 s ++ 0 :: List.replicate n 0) := by
    cases s with
    | nil => rw [hbytes]; rfl
    | cons c s =>
        -- The first character has none before it, which is as if that were no space.
        have hfirst : hideDigits 0 (c :: s) = c :: hideDigits c s := by
          rw [hideDigits_cons, if_neg fun h => absurd h.1 (by decide)]
        rw [hbytes, hfirst]
        exact lsLoop_eq s [] c 512 hnul (by rw [List.length_cons] at hlen; omega)
  have hstr : str (hideDigits 0 s ++ 0 :: List.replicate n 0) = hideDigits 0 s :=
    Holds.str_eq ⟨zero_notMem_hideDigits hnul 0, _, rfl⟩
  rw [lsMain, if_neg (by omega), hloop, Option.map_some, hstr]

/-! ### Directories -/

/-- The text of an entry, with every digit of the inode number replaced by a space. -/
def DirEntry.hidden (e : DirEntry) : List UInt8 :=
  e.name ++ (List.replicate e.gap space ++ (List.replicate (decimal e.ino).length space ++ [space]))

/-- The text of a directory, with every digit of every inode number replaced by a space. -/
def hiddenText (es : List DirEntry) : List UInt8 := es.flatMap DirEntry.hidden

/-- The name starts with a digit. -/
def DirEntry.StartsWithDigit (e : DirEntry) : Prop := isdigit (e.name.headD 0) = true

instance (e : DirEntry) : Decidable e.StartsWithDigit :=
  inferInstanceAs (Decidable (isdigit (e.name.headD 0) = true))

theorem hiddenText_cons (e : DirEntry) (es : List DirEntry) :
    hiddenText (e :: es) = e.hidden ++ hiddenText es := rfl

/-- After the name, the inode number of an entry is hidden. -/
theorem DirEntry.hideDigits_number (e : DirEntry) (p : UInt8) (t : List UInt8) :
    hideDigits p (List.replicate e.gap space ++ (decimal e.ino ++ ([space] ++ t))) =
      List.replicate e.gap space ++ (List.replicate (decimal e.ino).length space ++
        ([space] ++ hideDigits space t)) := by
  obtain ⟨gap, hgap⟩ : ∃ k, e.gap = k + 1 := ⟨e.gap - 1, by have := e.gap_pos; omega⟩
  rw [hgap, hideDigits_spaces, Egos.hideDigits_number fun c hc => isdigit_of_mem_decimal hc,
    ← List.replicate_one, hideDigits_spaces 0]

/-- **An entry** is hidden as it should be, unless its name starts with a digit and a space comes
before. -/
theorem DirEntry.hideDigits_text (e : DirEntry) {p : UInt8} (hp : p = space → ¬ e.StartsWithDigit)
    (t : List UInt8) : hideDigits p (e.text ++ t) = e.hidden ++ hideDigits space t := by
  obtain ⟨c, w, hname⟩ := List.exists_cons_of_ne_nil e.name_ne
  have hspace : space ∉ c :: w := hname ▸ e.name_space
  obtain ⟨hc, hw⟩ := List.ne_and_not_mem_of_not_mem_cons hspace
  have hfirst : ¬ (p = space ∧ isdigit c) := by
    rintro ⟨rfl, hdigit⟩
    refine hp rfl ?_
    rw [StartsWithDigit, hname]
    exact hdigit
  let number := List.replicate e.gap space ++ (decimal e.ino ++ ([space] ++ t))
  obtain ⟨q, -, hword⟩ := hideDigits_word hw hc.symm number
  calc hideDigits p (e.text ++ t)
      = hideDigits p (c :: (w ++ number)) := by
        rw [DirEntry.text, hname]
        simp only [number, List.append_assoc, List.cons_append]
    _ = c :: (w ++ hideDigits q number) := by
        rw [hideDigits_cons, if_neg hfirst, hword]
    _ = e.hidden ++ hideDigits space t := by
        rw [e.hideDigits_number, DirEntry.hidden, hname]
        simp only [List.append_assoc, List.cons_append]

/-- A name that starts with a digit and comes after a space is changed. -/
theorem DirEntry.hideDigits_text_ne (e : DirEntry) (he : e.StartsWithDigit) (t u : List UInt8) :
    hideDigits space (e.text ++ t) ≠ e.hidden ++ u := by
  obtain ⟨c, w, hname⟩ := List.exists_cons_of_ne_nil e.name_ne
  have hdigit : isdigit c = true := by
    rw [StartsWithDigit, hname] at he
    exact he
  intro h
  rw [DirEntry.text, DirEntry.hidden, hname, List.cons_append, List.cons_append, List.cons_append,
    List.cons_append, hideDigits_cons, if_pos ⟨rfl, hdigit⟩] at h
  have hc : space = c := (List.cons.inj h).1
  rw [← hc] at hdigit
  exact absurd hdigit (by decide)

/-- **The entries after a space** are hidden as they should be if no name starts with a digit, and
only then. -/
theorem hideDigits_dirText_iff (es : List DirEntry) :
    hideDigits space (dirText es) = hiddenText es ↔ ∀ e ∈ es, ¬ e.StartsWithDigit := by
  induction es with
  | nil => exact ⟨fun _ e he => absurd he List.not_mem_nil, fun _ => rfl⟩
  | cons e es ih =>
      rw [dirText_cons, hiddenText_cons, List.forall_mem_cons]
      by_cases he : e.StartsWithDigit
      · exact ⟨fun h => absurd h (e.hideDigits_text_ne he _ _), fun h => absurd he h.1⟩
      · rw [e.hideDigits_text fun _ => he, List.append_cancel_left_eq, ih]
        exact ⟨fun h => ⟨he, h⟩, And.right⟩

/-- **ls prints the text of a directory with every digit of every inode number replaced by a space,
and with every name as it is,** if no name other than the first one starts with a digit, and only
then. -/
theorem ls_hides_iff {argc : ℕ} (hargc : argc ≤ 1) (es : List DirEntry)
    (hlen : (dirText es).length < 512) :
    lsMain argc (dirBlock es) = some (.text (hiddenText es ++ chars ['\r', '\n']), 0) ↔
      ∀ e ∈ es.tail, ¬ e.StartsWithDigit := by
  rw [lsMain_eq hargc (zero_notMem_dirText es) hlen (dirBlock_bytes hlen.le), Option.some_inj,
    Prod.mk.injEq, LsOutput.text.injEq, List.append_cancel_right_eq, and_iff_left rfl]
  cases es with
  | nil => exact ⟨fun _ e he => absurd he List.not_mem_nil, fun _ => rfl⟩
  | cons e es =>
      rw [dirText_cons, hiddenText_cons, e.hideDigits_text fun h => absurd h (by decide),
        List.append_cancel_left_eq, hideDigits_dirText_iff, List.tail_cons]

theorem ls_hides_iff_rvr :
    lsMain 1 (dirBlock rvrDir) = some (.text (hiddenText rvrDir ++ chars ['\r', '\n']), 0) :=
  (ls_hides_iff le_rfl rvrDir (by decide)).2 (by decide)

/-- The directory `/home/rvr`, with a file `2048`. -/
def gameDir : List DirEntry :=
  rvrDir ++ [⟨chars ['2', '0', '4', '8'], 2, 16, by decide, by decide, by decide, by decide,
    by decide⟩]

/-- The name of the file `2048` is not in what is printed. -/
theorem ls_hides_name :
    lsMain 1 (dirBlock gameDir) = some (.text (hiddenText rvrDir ++
        (List.replicate 9 space ++ chars ['\r', '\n'])), 0) ∧
      lsMain 1 (dirBlock gameDir) ≠
        some (.text (hiddenText gameDir ++ chars ['\r', '\n']), 0) := by
  have hlen : (dirText gameDir).length = 24 := by decide
  have hmain := lsMain_eq (le_refl 1) (zero_notMem_dirText gameDir) (by rw [hlen]; decide)
    (dirBlock_bytes (by rw [hlen]; decide))
  rw [hmain]
  constructor
  · decide
  · decide

end Egos
