/-
**Command lines** (`apps/system/sys_shell.c`).

The shell reads a line from the terminal and splits it into words with `parse_request`, which fills
a table of `CMD_NARGS` = 16 slots of `CMD_ARG_LEN` = 32 bytes.  The splitter counts a word when a
space closes it, or at the end of the line; so a line of 16 words is accepted, and the same line
with a space at its end is not.

A store outside the table would be undefined in the source, and is a failure of the model.

Main definitions:

* `Egos.words` — the maximal runs of characters other than spaces;
* `Egos.Argv`, `Egos.ProcReq` — the table, and `struct proc_request`;
* `Egos.parseRequest` — the splitter;
* `Egos.shellRequest`, `Egos.lookups` — the request for a line, and the names that are looked up for
  it by `app_spawn` (`sys_proc.c`), `cat` and `cd`.

Main results:

* `Egos.parseRequest_spec` — what the splitter does with a line;
* `Egos.parse_accepts_iff` — **when the splitter accepts just the lines it has room for**;
* `Egos.in_range_iff` — **when nothing is indexed or copied out of range** for a line.
-/

import Mathlib.Algebra.Group.Int.Defs
import Mathlib.Algebra.GroupWithZero.Nat
import Mathlib.Data.Int.Basic
import Mathlib.Data.List.GetD
import Mathlib.Logic.Function.Basic

set_option autoImplicit false

namespace Egos

open Function (update update_of_ne update_self)

/-! ### Words -/

/-- The space character. -/
def space : UInt8 := 32

/-- The words of a line, after a word of which the characters `w` have been read. -/
def wordsFrom : List UInt8 → List UInt8 → List (List UInt8)
  | w, [] => if w = [] then [] else [w]
  | w, c :: line =>
      if c = space then (if w = [] then [] else [w]) ++ wordsFrom [] line
      else wordsFrom (w ++ [c]) line

/-- The maximal runs of characters of a line that are not spaces. -/
def words (line : List UInt8) : List (List UInt8) := wordsFrom [] line

theorem wordsFrom_cons_of_ne (w : List UInt8) {c : UInt8} (hc : c ≠ space) (line : List UInt8) :
    wordsFrom w (c :: line) = wordsFrom (w ++ [c]) line := by
  rw [wordsFrom, if_neg hc]

theorem wordsFrom_cons_space {w : List UInt8} (hw : w ≠ []) (line : List UInt8) :
    wordsFrom w (space :: line) = w :: wordsFrom [] line := by
  rw [wordsFrom, if_pos rfl, if_neg hw, List.singleton_append]

theorem wordsFrom_nil_cons_space (line : List UInt8) :
    wordsFrom [] (space :: line) = wordsFrom [] line := by
  rw [wordsFrom, if_pos rfl, if_pos rfl, List.nil_append]

/-- A word that has been begun is the beginning of the first word. -/
theorem exists_mem_wordsFrom {w : List UInt8} (hw : w ≠ []) (line : List UInt8) :
    ∃ u ∈ wordsFrom w line, w.length ≤ u.length := by
  induction line generalizing w with
  | nil =>
      rw [wordsFrom, if_neg hw]
      exact ⟨w, List.mem_singleton.2 rfl, le_rfl⟩
  | cons c line ih =>
      by_cases hc : c = space
      · subst hc
        rw [wordsFrom_cons_space hw]
        exact ⟨w, List.mem_cons_self, le_rfl⟩
      · rw [wordsFrom_cons_of_ne w hc]
        obtain ⟨u, hmem, hle⟩ := ih (w := w ++ [c]) (by simp)
        rw [List.length_append, List.length_singleton] at hle
        exact ⟨u, hmem, by omega⟩

/-- A line without words consists of spaces. -/
theorem eq_space_of_words_nil {line : List UInt8} (h : wordsFrom [] line = []) :
    ∀ c ∈ line, c = space := by
  induction line with
  | nil => exact fun c hc => absurd hc List.not_mem_nil
  | cons c line ih =>
      by_cases hc : c = space
      · subst hc
        rw [wordsFrom_nil_cons_space] at h
        intro c' hc'
        rcases List.mem_cons.1 hc' with rfl | hmem
        · rfl
        · exact ih h c' hmem
      · rw [wordsFrom_cons_of_ne [] hc] at h
        obtain ⟨u, hmem, -⟩ := exists_mem_wordsFrom (w := [] ++ [c]) (by simp) line
        rw [h] at hmem
        exact absurd hmem List.not_mem_nil

/-- A word is not empty, and its characters are those of the line. -/
theorem mem_wordsFrom {w line u : List UInt8} (hu : u ∈ wordsFrom w line) :
    u ≠ [] ∧ ∀ c ∈ u, c ∈ w ∨ c ∈ line := by
  induction line generalizing w with
  | nil =>
      rw [wordsFrom] at hu
      split at hu
      · exact absurd hu List.not_mem_nil
      · rename_i hw
        rw [List.mem_singleton.1 hu]
        exact ⟨hw, fun c hc => Or.inl hc⟩
  | cons c line ih =>
      by_cases hc : c = space
      · subst hc
        by_cases hw : w = []
        · rw [hw, wordsFrom_nil_cons_space] at hu
          refine ⟨(ih hu).1, fun c' hc' => Or.inr ?_⟩
          exact List.mem_cons_of_mem _ (((ih hu).2 c' hc').resolve_left List.not_mem_nil)
        · rw [wordsFrom_cons_space hw] at hu
          rcases List.mem_cons.1 hu with rfl | hu
          · exact ⟨hw, fun c' hc' => Or.inl hc'⟩
          · refine ⟨(ih hu).1, fun c' hc' => Or.inr ?_⟩
            exact List.mem_cons_of_mem _ (((ih hu).2 c' hc').resolve_left List.not_mem_nil)
      · rw [wordsFrom_cons_of_ne w hc] at hu
        refine ⟨(ih hu).1, fun c' hc' => ?_⟩
        rcases (ih hu).2 c' hc' with hmem | hmem
        · rcases List.mem_append.1 hmem with hmem | hmem
          · exact Or.inl hmem
          · exact Or.inr (List.mem_singleton.1 hmem ▸ List.mem_cons_self)
        · exact Or.inr (List.mem_cons_of_mem _ hmem)

/-! ### The splitter -/

-- Shortcuts to Lean's own instances, as in `Block`.
instance neZero_16 : NeZero 16 := inferInstance

instance neZero_32 : NeZero 32 := inferInstance

/-- `char argv[CMD_NARGS][CMD_ARG_LEN]` -/
abbrev Argv : Type := Fin 16 → Fin 32 → UInt8

/-- The types of `struct proc_request`. -/
inductive ProcType
  | spawn
  | exit
  | killall
  deriving DecidableEq

/-- `struct proc_request` -/
structure ProcReq where
  type : ProcType
  argc : ℤ
  argv : Argv

/-- `argv[i][k] = c` -/
def Argv.set (argv : Argv) (i k : ℕ) (c : UInt8) : Option Argv :=
  if h : i < 16 ∧ k < 32 then
    some (update argv ⟨i, h.1⟩ (update (argv ⟨i, h.1⟩) ⟨k, h.2⟩ c))
  else none

/-- The loop of `parse_request`, over the rest of the line.  The result is the table, and `argc` if
the splitter returns `0`. -/
def parseLoop : List UInt8 → ℕ → ℕ → Argv → Option (Argv × Option ℕ)
  | [], idx, nargs, argv => some (argv, some (if idx ≠ 0 then nargs + 1 else nargs))
  | c :: line, idx, nargs, argv =>
      if c ≠ space then
        match argv.set nargs idx c with
        | none => none
        | some argv =>
            if idx + 1 ≥ 32 then some (argv, none) else parseLoop line (idx + 1) nargs argv
      else if idx ≠ 0 then
        match argv.set nargs idx 0 with
        | none => none
        | some argv =>
            if nargs + 1 ≥ 16 then some (argv, none) else parseLoop line 0 (nargs + 1) argv
      else parseLoop line idx nargs argv

/-- `parse_request`: the return value, and the request. -/
def parseRequest (buf : List UInt8) (req : ProcReq) : Option (ℤ × ProcReq) :=
  match parseLoop buf 0 0 (fun _ _ => 0) with
  | none => none
  | some (argv, none) => some (-1, { req with argv := argv })
  | some (argv, some argc) => some (0, { req with argc := argc, argv := argv })

/-! ### What the splitter does -/

/-- The table with the words of a list in its rows, each followed by null bytes. -/
def argvOf (ws : List (List UInt8)) : Argv := fun i k => (ws.getD i []).getD k 0

/-- There is room for the words of a line: at most 16 words of at most 31 characters. -/
def HasRoom (ws : List (List UInt8)) : Prop := ws.length ≤ 16 ∧ ∀ w ∈ ws, w.length ≤ 31

/-- The last one of 16 words is closed by a space. -/
def Closed (ws : List (List UInt8)) (line : List UInt8) : Prop :=
  ws.length = 16 ∧ line.getLast? = some space

/-- Only the last character of a line matters. -/
theorem closed_cons {ws : List (List UInt8)} {line : List UInt8} {c : UInt8}
    (h : line = [] → ws.length = 16 → c ≠ space) : Closed ws (c :: line) ↔ Closed ws line := by
  cases line with
  | nil =>
      constructor
      · exact fun hc => absurd (Option.some.inj hc.2) (h rfl hc.1)
      · exact fun hc => absurd hc.2 (by simp)
  | cons c' line => rw [Closed, Closed, List.getLast?_cons_cons]

theorem getD_concat {α : Type} (l : List α) (a d : α) (i : ℕ) :
    (l ++ [a]).getD i d = if i = l.length then a else l.getD i d := by
  by_cases h : i = l.length
  · rw [if_pos h, List.getD_append_right _ _ _ _ (by omega), h, Nat.sub_self, List.getD_cons_zero]
  · rw [if_neg h]
    rcases Nat.lt_or_ge i l.length with hlt | hge
    · rw [List.getD_append _ _ _ _ hlt]
    · rw [List.getD_eq_default l _ hge, List.getD_eq_default _ _ (by simp; omega)]

/-- The slots of the words of a list, and of one more. -/
theorem argvOf_concat (ws : List (List UInt8)) (w : List UInt8) (i : Fin 16) (k : Fin 32) :
    argvOf (ws ++ [w]) i k = if i.val = ws.length then w.getD k 0 else argvOf ws i k := by
  rw [argvOf, argvOf, getD_concat]
  split
  · rfl
  · rfl

/-- The splitter accepts a line. -/
def Accepted (line : List UInt8) : Prop := HasRoom (words line) ∧ ¬ Closed (words line) line

/-- Storing the next character of the word in the slot `ws.length`. -/
theorem argvOf_set {ws : List (List UInt8)} (hws : ws.length < 16) {w : List UInt8}
    (hw : w.length < 32) (c : UInt8) :
    (argvOf (ws ++ [w])).set ws.length w.length c = some (argvOf (ws ++ [w ++ [c]])) := by
  rw [Argv.set, dif_pos ⟨hws, hw⟩]
  refine congrArg some ?_
  funext i k
  rw [argvOf_concat]
  by_cases hi : i = ⟨ws.length, hws⟩
  · subst hi
    rw [update_self, if_pos rfl, getD_concat]
    by_cases hk : k = ⟨w.length, hw⟩
    · subst hk
      rw [update_self, if_pos rfl]
    · rw [update_of_ne hk, if_neg fun h => hk (Fin.ext h), argvOf_concat, if_pos rfl]
  · have hne : i.val ≠ ws.length := fun h => hi (Fin.ext h)
    rw [update_of_ne hi, if_neg hne, argvOf_concat, if_neg hne]

/-- A null byte at the end of a word changes nothing. -/
theorem argvOf_null (ws : List (List UInt8)) (w : List UInt8) :
    argvOf (ws ++ [w ++ [0]]) = argvOf (ws ++ [w]) := by
  funext i k
  rw [argvOf_concat, argvOf_concat, getD_concat]
  by_cases hk : k.val = w.length
  · rw [if_pos hk, List.getD_eq_default w _ (by omega)]
  · rw [if_neg hk]

/-- A word that has not been begun leaves its slot empty. -/
theorem argvOf_empty (ws : List (List UInt8)) : argvOf (ws ++ [[]]) = argvOf ws := by
  funext i k
  rw [argvOf_concat]
  by_cases hi : i.val = ws.length
  · rw [if_pos hi, argvOf, List.getD_eq_default ws _ (by omega)]
  · rw [if_neg hi]

/-- **The loop of the splitter**, when the words `ws` are in the table and the characters `w` of the
next one. -/
theorem parseLoop_spec :
    ∀ line ws w, ws.length < 16 → w.length < 32 → (∀ u ∈ ws, u.length ≤ 31) →
      (HasRoom (ws ++ wordsFrom w line) ∧ ¬ Closed (ws ++ wordsFrom w line) line →
        parseLoop line w.length ws.length (argvOf (ws ++ [w])) =
          some (argvOf (ws ++ wordsFrom w line), some (ws ++ wordsFrom w line).length)) ∧
      (¬ (HasRoom (ws ++ wordsFrom w line) ∧ ¬ Closed (ws ++ wordsFrom w line) line) →
        ∃ argv, parseLoop line w.length ws.length (argvOf (ws ++ [w])) = some (argv, none)) := by
  intro line
  induction line with
  | nil =>
      intro ws w hws hw hlen
      rw [parseLoop]
      have hfew : (ws ++ wordsFrom w []).length =
          if w.length ≠ 0 then ws.length + 1 else ws.length := by
        rw [wordsFrom]
        cases w with
        | nil => rw [if_pos rfl, if_neg (by simp), List.append_nil]
        | cons c w =>
          rw [if_neg (by simp), if_pos (by simp), List.length_append, List.length_singleton]
      have hslots : argvOf (ws ++ wordsFrom w []) = argvOf (ws ++ [w]) := by
        rw [wordsFrom]
        by_cases hnil : w = []
        · rw [if_pos hnil, hnil, argvOf_empty, List.append_nil]
        · rw [if_neg hnil]
      refine ⟨fun _ => by rw [hslots, hfew], fun hno => absurd ⟨⟨?_, ?_⟩, ?_⟩ hno⟩
      · rw [hfew]
        split <;> omega
      · intro u hu
        rcases List.mem_append.1 hu with hu | hu
        · exact hlen u hu
        · rw [wordsFrom] at hu
          split at hu
          · exact absurd hu List.not_mem_nil
          · rw [List.mem_singleton.1 hu]
            omega
      · exact fun hclosed => absurd hclosed.2 (by simp)
  | cons c line ih =>
      intro ws w hws hw hlen
      rw [parseLoop]
      by_cases hc : c = space
      · subst hc
        rw [if_neg (by simp)]
        by_cases hnil : w = []
        · -- a space between two words
          subst hnil
          rw [List.length_nil, if_neg (by simp), wordsFrom_nil_cons_space]
          have hsame : Closed (ws ++ wordsFrom [] line) (space :: line) ↔
              Closed (ws ++ wordsFrom [] line) line := by
            refine closed_cons fun hend => ?_
            rw [hend, wordsFrom, if_pos rfl, List.append_nil]
            exact fun h16 => absurd h16 (by omega)
          rw [hsame]
          exact ih ws [] hws (by decide) hlen
        · -- the space closes a word
          have hpos : w.length ≠ 0 := fun h => hnil (List.length_eq_zero_iff.1 h)
          rw [if_pos hpos, argvOf_set hws hw, argvOf_null, wordsFrom_cons_space hnil]
          have happ : ws ++ w :: wordsFrom [] line = (ws ++ [w]) ++ wordsFrom [] line := by
            rw [List.append_assoc, List.singleton_append]
          rw [happ]
          have hlast : (ws ++ [w]).length = ws.length + 1 := by
            rw [List.length_append, List.length_singleton]
          have hlen' : ∀ u ∈ ws ++ [w], u.length ≤ 31 := by
            intro u hu
            rcases List.mem_append.1 hu with hu | hu
            · exact hlen u hu
            · rw [List.mem_singleton.1 hu]
              omega
          simp only
          by_cases hfull : ws.length + 1 ≥ 16
          · rw [if_pos hfull]
            refine ⟨fun hyes => absurd hyes ?_, fun _ => ⟨_, rfl⟩⟩
            rintro ⟨hroom, hopen⟩
            -- there is no further word, so the line ends with spaces
            have hnone : wordsFrom [] line = [] := by
              have := hroom.1
              rw [List.length_append, hlast] at this
              exact List.length_eq_zero_iff.1 (by omega)
            refine hopen ⟨by rw [hnone, List.append_nil, hlast]; omega, ?_⟩
            have hspaces : ∀ c ∈ space :: line, c = space := by
              intro c hmem
              rcases List.mem_cons.1 hmem with rfl | hmem
              · rfl
              · exact eq_space_of_words_nil hnone c hmem
            rw [List.getLast?_eq_some_getLast (List.cons_ne_nil _ _)]
            exact congrArg some (hspaces _ (List.getLast_mem _))
          · rw [if_neg hfull]
            have hsame : Closed ((ws ++ [w]) ++ wordsFrom [] line) (space :: line) ↔
                Closed ((ws ++ [w]) ++ wordsFrom [] line) line := by
              refine closed_cons fun hend => ?_
              rw [hend, wordsFrom, if_pos rfl, List.append_nil]
              exact fun h16 => absurd h16 (by omega)
            rw [hsame]
            have := ih (ws ++ [w]) [] (by omega) (by decide) hlen'
            rwa [hlast, argvOf_empty] at this
      · -- a character of a word
        rw [if_pos hc, argvOf_set hws hw, wordsFrom_cons_of_ne w hc]
        have hlast : (w ++ [c]).length = w.length + 1 := by
          rw [List.length_append, List.length_singleton]
        simp only
        by_cases hlong : w.length + 1 ≥ 32
        · rw [if_pos hlong]
          refine ⟨fun hyes => absurd hyes ?_, fun _ => ⟨_, rfl⟩⟩
          rintro ⟨hroom, -⟩
          obtain ⟨u, hmem, hle⟩ := exists_mem_wordsFrom (w := w ++ [c]) (by simp) line
          have := hroom.2 u (List.mem_append_right _ hmem)
          omega
        · rw [if_neg hlong]
          have hsame : Closed (ws ++ wordsFrom (w ++ [c]) line) (c :: line) ↔
              Closed (ws ++ wordsFrom (w ++ [c]) line) line := closed_cons fun _ _ => hc
          rw [hsame]
          have := ih ws (w ++ [c]) hws (by omega) hlen
          rwa [hlast] at this

/-- **What `parse_request` does**: it never stores outside of the table, and it returns `0` if there
is room for the words and the last one of 16 words is not closed by a space. -/
theorem parseRequest_spec (line : List UInt8) (req : ProcReq) :
    (Accepted line → parseRequest line req =
      some (0, { req with argc := (words line).length, argv := argvOf (words line) })) ∧
    (¬ Accepted line → ∃ argv, parseRequest line req = some (-1, { req with argv := argv })) := by
  have h := parseLoop_spec line [] [] (by decide) (by decide) (by simp)
  have hempty : argvOf ([] ++ [[]]) = fun _ _ => 0 := by
    rw [argvOf_empty]
    rfl
  rw [hempty] at h
  rw [parseRequest]
  constructor
  · intro hyes
    have := h.1 hyes
    rw [List.length_nil, List.length_nil] at this
    rw [this]
    rfl
  · intro hno
    obtain ⟨argv, hargv⟩ := h.2 hno
    rw [List.length_nil, List.length_nil] at hargv
    rw [hargv]
    exact ⟨argv, rfl⟩

/-- **When the splitter accepts just the lines it has room for.**  It returns `0` for the lines with
at most 16 words of at most 31 characters, with the number of the words in `argc` and the words in
their slots, unless the last one of exactly 16 words is followed by a space. -/
theorem parse_accepts_iff (line : List UInt8) (req : ProcReq) :
    (∃ r req', parseRequest line req = some (r, req') ∧ (r = 0 ↔ HasRoom (words line)) ∧
      (HasRoom (words line) →
        req'.argc = (words line).length ∧ req'.argv = argvOf (words line))) ↔
      ¬ (HasRoom (words line) ∧ Closed (words line) line) := by
  obtain ⟨hyes, hno⟩ := parseRequest_spec line req
  constructor
  · rintro ⟨r, req', hparse, hr, -⟩ ⟨hroom, hclosed⟩
    obtain ⟨argv, hargv⟩ := hno fun h => h.2 hclosed
    rw [hargv] at hparse
    have hr' : (-1 : ℤ) = r := congrArg Prod.fst (Option.some.inj hparse)
    have := hr.2 hroom
    omega
  · intro hcond
    by_cases hroom : HasRoom (words line)
    · have hopen : ¬ Closed (words line) line := fun hclosed => hcond ⟨hroom, hclosed⟩
      exact ⟨0, _, hyes ⟨hroom, hopen⟩, ⟨fun _ => hroom, fun _ => rfl⟩, fun _ => ⟨rfl, rfl⟩⟩
    · obtain ⟨argv, hargv⟩ := hno fun h => hroom h.1
      exact ⟨-1, _, hargv, ⟨fun h => absurd h (by decide), fun h => absurd h hroom⟩,
        fun h => absurd h hroom⟩

instance (ws : List (List UInt8)) : Decidable (HasRoom ws) :=
  inferInstanceAs (Decidable (_ ∧ _))

/-- **Sixteen words and a space are refused**, although there is room for them, and the same words
without the space at the end are accepted. -/
theorem sixteen_words_refused :
    HasRoom (words (List.replicate 16 [97, space]).flatten) ∧
      (parseRequest (List.replicate 16 [97, space]).flatten ⟨.spawn, 0, fun _ _ => 0⟩).map
        Prod.fst = some (-1) ∧
      words (List.replicate 16 [97, space]).flatten.dropLast =
        words (List.replicate 16 [97, space]).flatten ∧
      (parseRequest (List.replicate 16 [97, space]).flatten.dropLast
        ⟨.spawn, 0, fun _ _ => 0⟩).map Prod.fst = some 0 := by
  refine ⟨by decide, ?_, by decide, ?_⟩
  · rfl
  · rfl

/-! ### The requests of the shell -/

/-- The characters of a string literal of the source. -/
def chars (s : List Char) : List UInt8 := s.map fun c => UInt8.ofNat c.toNat

/-- The string in a slot of the table: the bytes before the first null byte. -/
def Argv.str (argv : Argv) (i : Fin 16) : List UInt8 :=
  (List.ofFn (argv i)).takeWhile (· ≠ 0)

/-- The request that the shell sends for a line, if it sends one.  The variable `req` is not
initialised, and holds anything before. -/
def shellRequest (buf : List UInt8) (req : ProcReq) : Option (Option ProcReq) :=
  if buf = chars ['k', 'i', 'l', 'l', 'a', 'l', 'l'] then some (some { req with type := .killall })
  else
    match parseRequest buf { req with type := .spawn } with
    | none => none
    | some (r, req) => if r ≠ 0 then some none else some (some req)

/-- The `argc` of the new process in `app_spawn`: the last word is dropped if it starts with
`&`.  The index `req->argc - 1` has to be in range. -/
def spawnArgc (req : ProcReq) : Option ℤ :=
  if h : 1 ≤ req.argc ∧ req.argc ≤ 16 then
    some (if req.argv ⟨(req.argc - 1).toNat, by omega⟩ 0 = 38 then req.argc - 1 else req.argc)
  else none

/-- The names that `cat` passes to `dir_lookup`. -/
def catLookups (argc : ℤ) (argv : Argv) : List (List UInt8) :=
  if argc = 1 then [] else [argv.str 1]

/-- The names that `cd` passes to `dir_lookup`: `strcat(argv[1], "/")` appends to the slot. -/
def cdLookups (argc : ℤ) (argv : Argv) : List (List UInt8) :=
  if argc = 1 then [chars ['h', 'o', 'm', 'e', '/'], chars ['y', 'u', 'n', 'h', 'a', 'o', '/']]
  else [argv.str 1 ++ chars ['/']]

/-- The names that `app_spawn` passes to `dir_lookup` for a request, and after it the program, if it
is `cat` or `cd`. -/
def lookups (req : ProcReq) : List (List UInt8) :=
  match req.type with
  | .spawn =>
      [chars ['b', 'i', 'n', '/'], req.argv.str 0] ++
        match spawnArgc req with
        | none => []
        | some argc =>
            if req.argv.str 0 = chars ['c', 'a', 't'] then catLookups argc req.argv
            else if req.argv.str 0 = chars ['c', 'd'] then cdLookups argc req.argv
            else []
  | _ => []

/-- **Nothing is indexed or copied out of range** for a line: no store of the splitter, and not the
last word of the request; the first word is not empty, and every name fits `CMD_ARG_LEN` and
`DIR_NAME_SIZE` = 32 bytes together with its null byte. -/
def InRange (line : List UInt8) (req : ProcReq) : Prop :=
  ∃ sent, shellRequest line req = some sent ∧ ∀ r, sent = some r →
    1 ≤ r.argc ∧ r.argc ≤ 16 ∧ r.argv.str 0 ≠ [] ∧ ∀ name ∈ lookups r, name.length + 1 ≤ 32

/-- The command is `cd` with an argument of 31 characters. -/
def LongCd (ws : List (List UInt8)) : Prop :=
  ∃ w rest, ws = chars ['c', 'd'] :: w :: rest ∧ w.length = 31 ∧ ¬ (rest = [] ∧ w.head? = some 38)

/-- **The words in their slots**, and empty strings after them. -/
theorem argvOf_str {ws : List (List UInt8)} (hlen : ∀ w ∈ ws, w.length ≤ 31)
    (hnul : ∀ w ∈ ws, 0 ∉ w) (i : Fin 16) : (argvOf ws).str i = ws.getD i [] := by
  have hmem : ws.getD i [] = [] ∨ ws.getD i [] ∈ ws := by
    rcases Nat.lt_or_ge i ws.length with hlt | hge
    · rw [List.getD_eq_getElem ws [] hlt]
      exact Or.inr (List.getElem_mem hlt)
    · exact Or.inl (List.getD_eq_default ws [] hge)
  have hw : (ws.getD i []).length ≤ 31 ∧ 0 ∉ ws.getD i [] := by
    rcases hmem with hnil | hmem
    · rw [hnil]
      exact ⟨by decide, List.not_mem_nil⟩
    · exact ⟨hlen _ hmem, hnul _ hmem⟩
  have hslot : argvOf ws i = fun k : Fin 32 => (ws.getD i []).getD k 0 := rfl
  rw [Argv.str, hslot]
  generalize ws.getD i [] = w at hw
  have hall : List.ofFn (fun k : Fin 32 => w.getD k 0) = w ++ List.replicate (32 - w.length) 0 := by
    refine List.ext_getElem (by simp; omega) fun k h₁ h₂ => ?_
    rw [List.getElem_ofFn]
    rcases Nat.lt_or_ge k w.length with hlt | hge
    · rw [List.getElem_append_left hlt]
      exact List.getD_eq_getElem w 0 hlt
    · rw [List.getElem_append_right hge, List.getElem_replicate]
      exact List.getD_eq_default w 0 hge
  rw [hall, List.takeWhile_append_of_pos]
  · rw [List.takeWhile_replicate]
    simp
  · intro c hc
    simp only [decide_eq_true_eq]
    exact fun h0 => hw.2 (h0 ▸ hc)

/-- The names that are looked up. -/
theorem mem_lookups {req : ProcReq} (htype : req.type = .spawn) {argc : ℤ}
    (hargc : spawnArgc req = some argc) (name : List UInt8) :
    name ∈ lookups req ↔ name = chars ['b', 'i', 'n', '/'] ∨ name = req.argv.str 0 ∨
      (req.argv.str 0 = chars ['c', 'a', 't'] ∧ name ∈ catLookups argc req.argv) ∨
      (req.argv.str 0 = chars ['c', 'd'] ∧ name ∈ cdLookups argc req.argv) := by
  rw [lookups, htype, hargc]
  have hne : chars ['c', 'd'] ≠ chars ['c', 'a', 't'] := by decide
  by_cases hcat : req.argv.str 0 = chars ['c', 'a', 't']
  · simp [hcat, hne.symm]
  · by_cases hcd : req.argv.str 0 = chars ['c', 'd']
    · simp [hcd, hne]
    · simp [hcat, hcd]

section Line

variable {line : List UInt8}

/-- What the shell sends for a line that is not `killall`. -/
theorem shellRequest_spec (hkill : line ≠ chars ['k', 'i', 'l', 'l', 'a', 'l', 'l'])
    (req : ProcReq) :
    (Accepted line → shellRequest line req =
      some (some ⟨.spawn, (words line).length, argvOf (words line)⟩)) ∧
    (¬ Accepted line → shellRequest line req = some none) := by
  obtain ⟨hyes, hno⟩ := parseRequest_spec line { req with type := .spawn }
  rw [shellRequest, if_neg hkill]
  constructor
  · intro hacc
    rw [hyes hacc]
    rfl
  · intro hacc
    obtain ⟨argv, hargv⟩ := hno hacc
    rw [hargv]
    rfl

/-- The words of an accepted line are found in their slots. -/
theorem Accepted.str (hacc : Accepted line) (hnul : 0 ∉ line) (i : Fin 16) :
    (argvOf (words line)).str i = (words line).getD i [] :=
  argvOf_str hacc.1.2 (fun _ hmem h0 =>
    hnul (((mem_wordsFrom hmem).2 0 h0).resolve_left List.not_mem_nil)) i

/-- The `argc` of the new process. -/
theorem spawnArgc_argvOf {ws : List (List UInt8)} (hne : ws ≠ []) (hle : ws.length ≤ 16) :
    spawnArgc ⟨.spawn, ws.length, argvOf ws⟩ =
      some (if (ws.getLast hne).head? = some 38 then (ws.length : ℤ) - 1 else ws.length) := by
  have hpos : 0 < ws.length := List.length_pos_iff.2 hne
  rw [spawnArgc, dif_pos (by constructor <;> simp only <;> omega)]
  have hlast : argvOf ws ⟨((ws.length : ℤ) - 1).toNat, by omega⟩ 0 = 38 ↔
      (ws.getLast hne).head? = some 38 := by
    have hidx : ((ws.length : ℤ) - 1).toNat = ws.length - 1 := by omega
    rw [argvOf, List.getLast_eq_getElem]
    simp only [hidx]
    rw [List.getD_eq_getElem ws [] (by omega)]
    cases ws[ws.length - 1] with
    | nil => exact ⟨fun h => absurd h (by decide), fun h => absurd h (by simp)⟩
    | cons c w => exact ⟨fun h => congrArg some h, fun h => Option.some.inj h⟩
  by_cases h38 : (ws.getLast hne).head? = some 38
  · rw [if_pos h38]
    exact congrArg some (if_pos (hlast.2 h38))
  · rw [if_neg h38]
    exact congrArg some (if_neg fun h => h38 (hlast.1 h))

/-- The new process gets one argument, its name, if there is no other word, or only the `&` of a
background command. -/
theorem spawnArgc_eq_one_iff {u w : List UInt8} {rest : List (List UInt8)}
    (hle : (u :: w :: rest).length ≤ 16) :
    spawnArgc ⟨.spawn, (u :: w :: rest).length, argvOf (u :: w :: rest)⟩ = some 1 ↔
      rest = [] ∧ w.head? = some 38 := by
  rw [spawnArgc_argvOf (List.cons_ne_nil _ _) hle, List.getLast_cons_cons, Option.some.injEq]
  cases rest with
  | nil =>
      rw [List.getLast_singleton]
      split <;> simp_all
  | cons v rest =>
      refine ⟨fun h => ?_, fun h => absurd h.1 (by simp)⟩
      simp only [List.length_cons] at h
      split at h <;> omega

/-- The names that are looked up for an accepted line fit, unless it is a `cd` with a long
argument. -/
theorem lookups_fit_iff (hacc : Accepted line) (hnul : 0 ∉ line) (hne : words line ≠ []) :
    (∀ name ∈ lookups ⟨.spawn, (words line).length, argvOf (words line)⟩, name.length + 1 ≤ 32) ↔
      ¬ LongCd (words line) := by
  have hstr := fun i => hacc.str hnul i
  obtain ⟨argc, hargc⟩ : ∃ argc, spawnArgc ⟨.spawn, (words line).length, argvOf (words line)⟩ =
      some argc := ⟨_, spawnArgc_argvOf hne hacc.1.1⟩
  have hlen : ∀ i, ((words line).getD i []).length ≤ 31 := by
    intro i
    rcases Nat.lt_or_ge i (words line).length with hlt | hge
    · rw [List.getD_eq_getElem _ _ hlt]
      exact hacc.1.2 _ (List.getElem_mem hlt)
    · rw [List.getD_eq_default _ _ hge]
      decide
  constructor
  · rintro hfit ⟨w, rest, heq, hlong, hbg⟩
    have hone := spawnArgc_eq_one_iff (heq ▸ hacc.1.1)
    rw [← heq, hargc, Option.some.injEq] at hone
    have hmem := hfit (w ++ chars ['/']) ((mem_lookups rfl hargc _).2 ?_)
    · rw [List.length_append, hlong] at hmem
      exact absurd hmem (by decide)
    · refine Or.inr (Or.inr (Or.inr ⟨?_, ?_⟩))
      · rw [hstr, heq]
        rfl
      · rw [cdLookups, if_neg fun h => hbg (hone.1 h), hstr, heq]
        exact List.mem_singleton.2 rfl
  · intro hshort name hname
    rcases (mem_lookups rfl hargc name).1 hname with rfl | rfl | ⟨-, hcat⟩ | ⟨hcd, hname⟩
    · decide
    · have := hlen 0
      rw [hstr]
      exact Nat.succ_le_succ this
    · rw [catLookups] at hcat
      split at hcat
      · exact absurd hcat List.not_mem_nil
      · have := hlen 1
        rw [List.mem_singleton.1 hcat, hstr]
        exact Nat.succ_le_succ this
    · rw [cdLookups] at hname
      split at hname
      · rcases List.mem_cons.1 hname with rfl | hname
        · decide
        · rw [List.mem_singleton.1 hname]
          decide
      · rename_i hmany
        rw [List.mem_singleton.1 hname, hstr, List.length_append]
        -- the argument is the second word, if there is one
        have hle := hlen 1
        have hne31 : ((words line).getD 1 []).length ≠ 31 := by
          intro h31
          rw [hstr] at hcd
          have hroom := hacc.1.1
          generalize words line = ws at *
          cases ws with
          | nil => exact absurd h31 (by decide)
          | cons u ws =>
              cases ws with
              | nil => exact absurd h31 (by simp)
              | cons w rest =>
                  have hone := spawnArgc_eq_one_iff hroom
                  rw [hargc, Option.some.injEq] at hone
                  have hu : u = chars ['c', 'd'] := hcd
                  exact hshort ⟨w, rest, by rw [hu], h31, fun hbg => hmany (hone.2 hbg)⟩
        change ((words line).getD 1 []).length + 1 + 1 ≤ 32
        omega

/-- **When nothing is indexed or copied out of range.**  Whatever the uninitialised request of the
shell holds before, a line keeps everything in range if and only if it is not `killall`, it has a
word, and it is not a `cd` with an argument of 31 characters. -/
theorem in_range_iff (hnul : 0 ∉ line) :
    (∀ req, InRange line req) ↔
      line ≠ chars ['k', 'i', 'l', 'l', 'a', 'l', 'l'] ∧ words line ≠ [] ∧
        ¬ (Accepted line ∧ LongCd (words line)) := by
  constructor
  · intro hall
    have hkill : line ≠ chars ['k', 'i', 'l', 'l', 'a', 'l', 'l'] := by
      intro hkill
      obtain ⟨sent, hsent, hr⟩ := hall ⟨.spawn, 0, fun _ _ => 0⟩
      rw [shellRequest, if_pos hkill] at hsent
      have := (hr _ (Option.some.inj hsent).symm).1
      exact absurd this (by decide)
    obtain ⟨hyes, -⟩ := shellRequest_spec hkill ⟨.spawn, 0, fun _ _ => 0⟩
    obtain ⟨sent, hsent, hr⟩ := hall ⟨.spawn, 0, fun _ _ => 0⟩
    refine ⟨hkill, fun hnone => ?_, fun ⟨hacc, hlong⟩ => ?_⟩
    · have hacc : Accepted line := by
        rw [Accepted, hnone]
        exact ⟨by decide, fun h => absurd h.1 (by decide)⟩
      rw [hyes hacc] at hsent
      have := (hr _ (Option.some.inj hsent).symm).1
      rw [hnone] at this
      exact absurd this (by decide)
    · have hne : words line ≠ [] := by
        obtain ⟨w, rest, heq, -⟩ := hlong
        rw [heq]
        exact List.cons_ne_nil _ _
      rw [hyes hacc] at hsent
      obtain ⟨-, -, -, hfit⟩ := hr _ (Option.some.inj hsent).symm
      exact (lookups_fit_iff hacc hnul hne).1 hfit hlong
  · rintro ⟨hkill, hne, hcd⟩ req
    obtain ⟨hyes, hno⟩ := shellRequest_spec hkill req
    by_cases hacc : Accepted line
    · refine ⟨_, hyes hacc, fun r hr => ?_⟩
      rw [← Option.some.inj hr]
      have hpos : 0 < (words line).length := List.length_pos_iff.2 hne
      have hle := hacc.1.1
      refine ⟨by simp only; omega, by simp only; omega, ?_, ?_⟩
      · have hfirst : (words line).getD 0 [] = (words line)[0] := List.getD_eq_getElem _ _ hpos
        change (argvOf (words line)).str 0 ≠ []
        rw [hacc.str hnul 0]
        exact hfirst ▸ (mem_wordsFrom (List.getElem_mem hpos)).1
      · exact (lookups_fit_iff hacc hnul hne).2 fun hlong => hcd ⟨hacc, hlong⟩
    · exact ⟨none, hno hacc, fun r hr => absurd hr (by simp)⟩

/-- The command `ls -l`. -/
theorem in_range_iff_ls :
    InRange (chars ['l', 's', ' ', '-', 'l']) ⟨.spawn, 0, fun _ _ => 0⟩ := by
  refine (in_range_iff (by decide)).2 ⟨by decide, by decide, ?_⟩ _
  rintro ⟨-, w, rest, heq, -⟩
  exact absurd (List.cons.inj heq).1 (by decide)

/-- **A blank line and a long `cd` leave the range**: a line of one space is sent as a request
with no words, and for a `cd` with an argument of 31 characters the name of 32 characters does not
fit. -/
theorem blank_line_out_of_range :
    ¬ InRange [space] ⟨.spawn, 0, fun _ _ => 0⟩ ∧
      ¬ InRange (chars ['c', 'd', ' '] ++ List.replicate 31 97) ⟨.spawn, 0, fun _ _ => 0⟩ := by
  constructor
  · rintro ⟨sent, hsent, hr⟩
    have hargc := (hr _ (Option.some.inj hsent).symm).1
    exact absurd hargc (by decide)
  · rintro ⟨sent, hsent, hr⟩
    obtain ⟨-, -, -, hfit⟩ := hr _ (Option.some.inj hsent).symm
    have hname := hfit (List.replicate 31 97 ++ chars ['/']) (by decide)
    exact absurd hname (by decide)

end Line

end Egos
