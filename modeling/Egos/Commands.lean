/-
**The commands, as the user sees them** (`apps/user/*.c`, `apps/system/sys_shell.c`).

A line that is typed to the shell is split into words, the program is looked up in `/bin` and
loaded, and it runs with the words as its arguments: `echo` and `pwd` print what they have, `ls` and
`cat` read a block of the working directory or of a file in it, and `cd` changes the working
directory.  This module models the commands on the bytes of the blocks and of the arguments, and
compares them with what the line means in a tree of directories and files.  Which program runs is
read off the code pages that `app_spawn` has given the new process.

Main definitions:

* `Egos.catMain`, `Egos.echoMain`, `Egos.pwdMain`, `Egos.cdMain` — the programs;
* `Egos.serveSpawn` — `sys_proc` spawns a process, and the program that was loaded runs;
* `Egos.shellCommand` — what the shell, `sys_proc` and the program do for a line;
* `Egos.FileTree` — a tree of directories and files;
* `Egos.FileTree.answer` — what a line means in the tree;
* `Egos.FileTree.Served` — the texts and the programs of the tree are there.

Main results:

* `Egos.FileTree.run_eq` — a program does what it means;
* `Egos.FileTree.shellCommand_eq` — **a line does what it means**.
-/

import Egos.Arguments
import Egos.Ls

set_option autoImplicit false

namespace Egos

open CString

/-! ### The programs -/

/-- The bytes of a text. -/
def utf8 (s : String) : List UInt8 := s.toUTF8.data.toList

/-- `INFO(...)` -/
def info (msg : List UInt8) : List UInt8 := utf8 "[INFO] " ++ (msg ++ chars ['\r', '\n'])

/-- `main` of `cat`: what is printed, and the result.  If the block holds the empty string, the
byte before the array is read, which has no result here. -/
def catMain (blocks : ℤ → Block) (argc : ℤ) (argv : Argv) (workdirIno : ℤ) :
    Option (List UInt8 × ℤ) :=
  if argc = 1 then some (info (utf8 "usage: cat [FILE]"), -1)
  else do
    let fileIno ← dirLookup blocks workdirIno (argv.str 1)
    if fileIno < 0 then
      some (info (utf8 "cat: file " ++ (argv.str 1 ++ utf8 " not found")), -1)
    else do
      let buf := (blocks fileIno).bytes
      let len ← strlen buf
      let last ← (if len = 0 then none else buf[len - 1]?)
      some (str buf ++ (if last ≠ 10 then chars ['\r', '\n'] else []), 0)

/-- The loop of `main` of `echo` from the argument `i` on, of which there are `n` more. -/
def echoLoop (argv : Argv) : ℕ → ℕ → Option (List UInt8)
  | _, 0 => some (chars ['\r', '\n'])
  | i, n + 1 => do
      let arg ← (if h : i < 16 then some (argv.str ⟨i, h⟩) else none)
      let rest ← echoLoop argv (i + 1) n
      some (arg ++ space :: rest)

/-- `main` of `echo` -/
def echoMain (argc : ℤ) (argv : Argv) : Option (List UInt8) := echoLoop argv 1 (argc.toNat - 1)

/-- `main` of `pwd` -/
def pwdMain (w : Workdir) : List UInt8 := str w.path ++ chars ['\r', '\n']

/-- `main` of `cd`, with what is printed. -/
def cdMain (blocks : ℤ → Block) (argc : ℤ) (argv : Argv) (w : Workdir) :
    Option (List UInt8 × Workdir) := do
  let (r, w') ← cd blocks argc argv w
  some (if r = -1 then
    info (utf8 "cd: directory " ++ (argv.str 1 ++ (chars ['/'] ++ utf8 " not found"))) else [], w')

/-- The bytes that `ls` prints. -/
def LsOutput.bytes : LsOutput → List UInt8
  | .info msg => Egos.info (utf8 msg)
  | .text bytes => bytes

/-- The programs of `/bin` that are followed here. -/
inductive Program
  | echo
  | cat
  | ls
  | cd
  | pwd
  deriving DecidableEq

/-- A program runs: what it prints, and the working directory after it. -/
def Program.run (blocks : ℤ → Block) (argc : ℤ) (argv : Argv) (w : Workdir) :
    Program → Option (List UInt8 × Workdir)
  | .echo => (echoMain argc argv).map fun out => (out, w)
  | .cat => (catMain blocks argc argv w.ino).map fun r => (r.1, w)
  | .ls => (lsMain argc.toNat (blocks w.ino)).map fun r => (r.1.bytes, w)
  | .cd => cdMain blocks argc argv w
  | .pwd => some (pwdMain w, w)

/-! ### The shell -/

/-- The page that a process has at a page number, as `paging_read` returns it. -/
def Mmu.pageOf (m : Mmu) (pid : ℤ) (pageNo : ℕ) : Option Page :=
  ((List.finRange 256).find? fun i => m.Owned i pid ∧ (m.table i).pageNo = pageNo).map
    fun i : Fin 256 => (m.toPaging.pagingRead i false).2.mem (m.toPaging.pagingRead i false).1

/-- The code pages of a process. -/
def Mmu.codeOf (m : Mmu) (pid : ℤ) : Option (List Page) :=
  [0, 1, 2].mapM fun c => m.pageOf pid (0x8005 + c)

/-- The code pages of a program that was loaded. -/
theorem CodeImage.codeOf_eq {file : ℕ → UInt8} {ph : ProgramHeader} {pid : ℤ} {m m' : Mmu}
    {own : Fin 256 → Page} (h : CodeImage file ph pid m m') (hpriv : m'.Private own)
    (hpid : pid ≠ 0) : m'.codeOf pid = some ([0, 1, 2].map (codePage file ph)) := by
  have hpage : ∀ c < 3, m'.pageOf pid (0x8005 + c) = some (codePage file ph c) := by
    intro c hc
    obtain ⟨i, hi, hpageNo, hread⟩ := h.code c hc
    unfold Mmu.pageOf
    cases hfind : (List.finRange 256).find? fun i =>
        m'.Owned i pid ∧ (m'.table i).pageNo = 0x8005 + c with
    | none =>
        have hnot := List.find?_eq_none.1 hfind i (List.mem_finRange i)
        exact absurd (decide_eq_true ⟨hi, hpageNo⟩) hnot
    | some k =>
        -- no other frame of the process is at that page
        have hk' := List.find?_some hfind
        obtain ⟨hk, hkpage⟩ := of_decide_eq_true hk'
        obtain rfl := hpriv.inj k i pid hpid hk hi (hkpage.trans hpageNo.symm)
        rw [Option.map_some, hread]
  unfold Mmu.codeOf
  simp only [List.mapM_cons, List.mapM_nil, hpage 0 (by omega), hpage 1 (by omega),
    hpage 2 (by omega), Option.bind_eq_bind, Option.bind_some, Option.pure_def, List.map_cons,
    List.map_nil]

/-- What a request to spawn a process meets: the machine, and what the file server reads for the
lookups and for the program.  While a block of the binary is fetched, other processes run before it
is read and after, and the buffer holds something before. -/
structure SpawnEnv where
  machine : Machine
  blocks : ℤ → Block
  before : ℕ → List VmAct
  after : ℕ → List VmAct
  stale : ℕ → Block

/-- `app_read` -/
def SpawnEnv.reader (env : SpawnEnv) (ino : ℤ) : Reader :=
  (appRead env.before env.after env.stale (toUint ino)).read

section Shell

variable (translation : Translation) (code : List Page → Option Program)

/-- What happens for a request to spawn a process: `app_spawn` loads the program, and it runs until
it exits.  It is the one of which its code pages, by `code`, are the binary; its arguments are in
its stack page.  A command in the background runs beside the shell and is not followed, nor is what
`sys_proc` prints about it, which it does even if there is no such program. -/
def serveSpawn (env : SpawnEnv) (req : ProcReq) (w : Workdir) : Option (List UInt8 × Workdir) := do
  let argc ← spawnArgc req
  if argc ≠ req.argc then none
  else do
    let (r, m) ← env.machine.appSpawn translation env.blocks env.reader req
    if r < 0 then some (info (utf8 "sys_shell: command causes an error"), w)
    else do
      -- the new process has the greatest pid
      let pages ← m.mmu.codeOf m.procNprocs
      let program ← code pages
      program.run env.blocks argc req.argv w

/-- What happens for a line: the body of the loop of `main` of the shell, without the prompt.  The
variable `req` is not initialised. -/
def shellCommand (env : SpawnEnv) (line : List UInt8) (req : ProcReq) (w : Workdir) :
    Option (List UInt8 × Workdir) := do
  match ← shellRequest line req with
  | none => some (info (utf8 "sys_shell: too many arguments or argument too long"), w)
  | some req =>
      match req.type with
      | .spawn => serveSpawn translation code env req w
      | .killall => some ([], w)
      | .exit => none

end Shell

/-! ### Trees of files -/

/-- A path, from the root. -/
abbrev Path : Type := List (List UInt8)

/-- **A tree of directories and files**: the directories, the texts of the files, and which files
are the binaries of programs. -/
structure FileTree extends Dirs where
  file : ℕ → Option (List UInt8)
  program : ℕ → Option Program
  home : (toDirs.resolve 0 homePath).isSome = true
  file_lt : ∀ i t, file i = some t → t.length < 512
  file_nul : ∀ i t, file i = some t → 0 ∉ t

namespace FileTree

variable (T : FileTree)

/-- The text that is stored in an inode. -/
def text (i : ℕ) : Option (List UInt8) :=
  if i ∈ T.dirs then some (dirText (T.entries i)) else T.file i

/-- What a name is in a directory, if it can be looked up. -/
def find (d : ℕ) (name : List UInt8) : Option (Option ℕ) :=
  if T.Searchable d name then some (lookupIn (T.entries d) name) else none

/-- What `echo` prints for its arguments. -/
def echoText (args : List (List UInt8)) : List UInt8 :=
  args.flatMap (· ++ [space]) ++ chars ['\r', '\n']

/-- What `cat` prints for a text. -/
def catText (t : List UInt8) : List UInt8 :=
  t ++ (if t.getLast? = some 10 then [] else chars ['\r', '\n'])

/-- `cat` with its arguments, in the directory `d`. -/
def cat (d : ℕ) : List (List UInt8) → Option (List UInt8)
  | [] => some (info (utf8 "usage: cat [FILE]"))
  | name :: _ => do
      match ← T.find d name with
      | none => some (info (utf8 "cat: file " ++ (name ++ utf8 " not found")))
      | some i => do
          let t ← T.text i
          if t = [] then none else some (catText t)

/-- `ls` with its arguments, in the directory `d`. -/
def ls (d : ℕ) : List (List UInt8) → Option (List UInt8)
  | [] =>
      if ∀ e ∈ (T.entries d).tail, ¬ e.StartsWithDigit then
        some (hiddenText (T.entries d) ++ chars ['\r', '\n'])
      else none
  | _ :: _ => some (info (utf8 "ls: ls with args not implemented"))

/-- `cd` with its arguments, in the directory `d` with the path `cs`. -/
def chdir (d : ℕ) (cs : Path) : List (List UInt8) → Option (List UInt8 × Path)
  | [] => some ([], homePath)
  | c :: _ => do
      match ← T.find d (dirName c) with
      | none => some (info (utf8 "cd: directory " ++ (dirName c ++ utf8 " not found")), cs)
      | some _ =>
          if (pathText (stepPath cs c)).length < 128 then some ([], stepPath cs c) else none

/-- A program with its arguments, in the directory `d` with the path `cs`. -/
def run (d : ℕ) (cs : Path) (args : List (List UInt8)) : Program → Option (List UInt8 × Path)
  | .echo => some (echoText args, cs)
  | .cat => (T.cat d args).map fun out => (out, cs)
  | .ls => (T.ls d args).map fun out => (out, cs)
  | .cd => T.chdir d cs args
  | .pwd => some (pathText cs ++ chars ['\r', '\n'], cs)

instance (line : List UInt8) : Decidable (Accepted line) :=
  inferInstanceAs (Decidable (_ ∧ ¬ (_ ∧ _)))

/-- **What a line means in the tree**, at a path: what is printed, and the path after it.  A line
that the tree does not give a meaning to, such as a command in the background, has none. -/
def answer (cs : Path) (line : List UInt8) : Option (List UInt8 × Path) :=
  if line = chars ['k', 'i', 'l', 'l', 'a', 'l', 'l'] then some ([], cs)
  else if ¬ Accepted line then
    some (info (utf8 "sys_shell: too many arguments or argument too long"), cs)
  else
    match words line with
    | [] => none
    | name :: args =>
        if ((name :: args).getLastD []).head? = some 38 then none
        else do
          let bin ← lookupIn (T.entries 0) (chars ['b', 'i', 'n', '/'])
          match ← T.find bin name with
          | none => some (info (utf8 "sys_shell: command causes an error"), cs)
          | some i => do
              let program ← T.program i
              let d ← T.resolve 0 cs
              T.run d cs args program

end FileTree

/-- The block with a text, which is filled up with null bytes. -/
def textBlock (t : List UInt8) : Block := fun k => t.getD k 0

/-! ### Lookups -/

namespace FileTree

variable (T : FileTree)

/-- The texts are stored in the inodes. -/
def StoredIn (blocks : ℤ → Block) : Prop := ∀ i t, T.text i = some t → blocks i = textBlock t

variable {T} {blocks : ℤ → Block}

theorem StoredIn.dirs (h : T.StoredIn blocks) : T.toDirs.StoredIn blocks :=
  fun d hd => h d _ (if_pos hd)

/-- The bytes of an inode. -/
theorem StoredIn.bytes (h : T.StoredIn blocks) {i : ℕ} {t : List UInt8} (ht : T.text i = some t) :
    0 ∉ t ∧ t.length < 512 ∧ (blocks i).bytes = t ++ List.replicate (512 - t.length) 0 := by
  have hbound : 0 ∉ t ∧ t.length < 512 := by
    rw [text] at ht
    split at ht
    · rename_i hi
      obtain rfl := Option.some.inj ht
      exact ⟨zero_notMem_dirText _, T.length_lt i hi⟩
    · exact ⟨T.file_nul i t ht, T.file_lt i t ht⟩
  refine ⟨hbound.1, hbound.2, ?_⟩
  rw [h i t ht]
  exact ofFn_getD t 0 hbound.2.le

end FileTree

/-! ### Words -/

/-- A word of a line. -/
def IsWord (u : List UInt8) : Prop := u ≠ [] ∧ space ∉ u ∧ 0 ∉ u

theorem space_notMem_wordsFrom {w line u : List UInt8} (hw : space ∉ w)
    (hu : u ∈ wordsFrom w line) : space ∉ u := by
  induction line generalizing w with
  | nil =>
      rw [wordsFrom] at hu
      split at hu
      · exact absurd hu List.not_mem_nil
      · rw [List.mem_singleton.1 hu]
        exact hw
  | cons c line ih =>
      rw [wordsFrom] at hu
      split at hu
      · rcases List.mem_append.1 hu with hu | hu
        · split at hu
          · exact absurd hu List.not_mem_nil
          · rw [List.mem_singleton.1 hu]
            exact hw
        · exact ih List.not_mem_nil hu
      · rename_i hc
        refine ih (fun h => ?_) hu
        rcases List.mem_append.1 h with h | h
        · exact hw h
        · exact hc (List.mem_singleton.1 h).symm

theorem isWord_of_mem {line u : List UInt8} (hnul : 0 ∉ line) (hu : u ∈ words line) : IsWord u := by
  obtain ⟨hne, hmem⟩ := mem_wordsFrom hu
  exact ⟨hne, space_notMem_wordsFrom List.not_mem_nil hu, fun h0 =>
    hnul ((hmem 0 h0).resolve_left List.not_mem_nil)⟩

/-- The words of a line for which there is room in the table. -/
structure InTable (ws : List (List UInt8)) : Prop where
  length : ws.length ≤ 16
  word_length : ∀ u ∈ ws, u.length ≤ 31
  word : ∀ u ∈ ws, IsWord u

theorem InTable.str {ws : List (List UInt8)} (h : InTable ws) (i : Fin 16) :
    (argvOf ws).str i = ws.getD i [] :=
  argvOf_str h.word_length (fun u hu => (h.word u hu).2.2) i

/-! ### The programs -/

theorem FileTree.echoText_cons (arg : List UInt8) (args : List (List UInt8)) :
    echoText (arg :: args) = arg ++ space :: echoText args := by
  simp [echoText]

/-- The loop of `echo` prints the words from the index on. -/
theorem echoLoop_eq {ws : List (List UInt8)} (h : InTable ws) :
    ∀ n i, i + n = ws.length →
      echoLoop (argvOf ws) i n = some (FileTree.echoText (ws.drop i)) := by
  intro n
  induction n with
  | zero =>
      intro i hi
      rw [echoLoop, List.drop_of_length_le (by omega)]
      rfl
  | succ n ih =>
      intro i hi
      have hlt : i < 16 := lt_of_lt_of_le (by omega) h.length
      have hlt' : i < ws.length := by omega
      rw [echoLoop, dif_pos hlt, ih (i + 1) (by omega), h.str, List.getD_eq_getElem ws [] hlt',
        List.drop_eq_getElem_cons hlt', FileTree.echoText_cons]
      rfl

namespace FileTree

variable {T : FileTree} {blocks : ℤ → Block} {d : ℕ} {name : List UInt8}
  {args : List (List UInt8)}

/-- The array that holds a text. -/
theorem StoredIn.holds (hblocks : T.StoredIn blocks) {i : ℕ} {t : List UInt8}
    (ht : T.text i = some t) : Holds (blocks i).bytes t := by
  obtain ⟨hnul, hlen, hbytes⟩ := hblocks.bytes ht
  refine ⟨hnul, List.replicate (511 - t.length) 0, ?_⟩
  rw [hbytes, show 512 - t.length = 511 - t.length + 1 by omega, List.replicate_succ]

/-- What `cat` does with the block of a text: the byte before the null byte is its last one. -/
theorem StoredIn.cat_block (hblocks : T.StoredIn blocks) {i : ℕ} {t : List UInt8}
    (ht : T.text i = some t) (hnil : t ≠ []) :
    (do
      let len ← strlen (blocks i).bytes
      let last ← (if len = 0 then none else (blocks i).bytes[len - 1]?)
      some (str (blocks i).bytes ++ (if last ≠ 10 then chars ['\r', '\n'] else []), (0 : ℤ))) =
        some (catText t, 0) := by
  have hholds := hblocks.holds ht
  have hpos : 0 < t.length := List.length_pos_iff.2 hnil
  have hlast : (blocks i).bytes[t.length - 1]? = some (t.getLast hnil) := by
    rw [(hblocks.bytes ht).2.2, List.getElem?_append_left (by omega), ← List.getLast?_eq_getElem?,
      List.getLast?_eq_getLast_of_ne_nil hnil]
  simp only [hholds.strlen_eq, Option.bind_eq_bind, Option.bind_some, if_neg hpos.ne', hlast,
    hholds.str_eq, catText, List.getLast?_eq_getLast_of_ne_nil hnil, Option.some.injEq, ne_eq,
    ite_not]

/-- **`cat` prints the text of the file.** -/
theorem catMain_eq (hblocks : T.StoredIn blocks) (hd : d ∈ T.dirs) (hws : InTable (name :: args))
    {out : List UInt8} (h : T.cat d args = some out) :
    ∃ r, catMain blocks (name :: args).length (argvOf (name :: args)) d = some (out, r) := by
  cases args with
  | nil => exact ⟨-1, congrArg (fun out => some (out, -1)) (Option.some.inj h)⟩
  | cons file args =>
      obtain ⟨hne, hsp, hnul⟩ := hws.word file (by simp)
      have hargc : ¬ ((name :: file :: args).length : ℤ) = 1 := by simp; omega
      have hstr : (argvOf (name :: file :: args)).str 1 = file := hws.str 1
      rw [cat, find] at h
      split at h
      · rename_i hsearch
        rw [catMain, if_neg hargc, hstr, Dirs.dirLookup_eq hblocks.dirs hd hsearch hne hsp hnul]
        cases hlookup : lookupIn (T.entries d) file with
        | none =>
            rw [hlookup] at h
            exact ⟨-1, congrArg (fun out => some (out, -1)) (Option.some.inj h)⟩
        | some i =>
            rw [hlookup, Option.bind_eq_bind, Option.bind_some] at h
            obtain ⟨t, ht, h⟩ := Option.bind_eq_some_iff.1 h
            split at h
            · exact absurd h (by simp)
            · rename_i hnil
              obtain rfl := Option.some.inj h
              have hi : ¬ (i : ℤ) < 0 := by omega
              rw [Option.bind_eq_bind, Option.bind_some, if_neg hi]
              exact ⟨0, hblocks.cat_block ht hnil⟩
      · exact absurd h (by simp)

/-- `ls` prints the directory without the inode numbers. -/
theorem lsMain_bytes (hblocks : T.StoredIn blocks) (hd : d ∈ T.dirs) {out : List UInt8}
    (h : T.ls d args = some out) :
    ∃ o r, lsMain (args.length + 1) (blocks d) = some (o, r) ∧ o.bytes = out := by
  cases args with
  | nil =>
      rw [ls] at h
      split at h
      · rename_i hdigits
        have hlen := T.length_lt d hd
        have htext : hideDigits 0 (dirText (T.entries d)) = hiddenText (T.entries d) := by
          generalize T.entries d = es at hdigits
          cases es with
          | nil => rfl
          | cons e es =>
              rw [dirText_cons, e.hideDigits_text fun h => absurd h (by decide),
                (hideDigits_dirText_iff es).2 hdigits]
              rfl
        refine ⟨.text _, 0, ?_, Option.some.inj h⟩
        rw [hblocks.dirs d hd, ← htext]
        exact lsMain_eq le_rfl (zero_notMem_dirText _) hlen (dirBlock_bytes hlen.le)
      · exact absurd h (by simp)
  | cons arg args =>
      refine ⟨_, _, if_pos ?_, Option.some.inj h⟩
      rw [List.length_cons]
      omega

/-- **`cd` follows the path.** -/
theorem cdMain_eq (hblocks : T.StoredIn blocks) (hws : InTable (name :: args)) {cs cs' : Path}
    {w : Workdir} (hat : At T.toDirs cs w d) {out : List UInt8}
    (h : T.chdir d cs args = some (out, cs')) :
    ∃ w' d', cdMain blocks (name :: args).length (argvOf (name :: args)) w = some (out, w') ∧
      At T.toDirs cs' w' d' := by
  cases args with
  | nil =>
      obtain ⟨rfl, rfl⟩ := Prod.mk.inj (Option.some.inj h)
      obtain ⟨y, hy⟩ := Option.isSome_iff_exists.1 T.home
      obtain ⟨w', hcd, hat'⟩ := cd_home hblocks.dirs hy (argvOf [name]) hat.length
      refine ⟨w', y, ?_, hat'⟩
      rw [cdMain, show (([name] : List (List UInt8)).length : ℤ) = 1 from rfl, hcd]
      rfl
  | cons c args =>
      rw [chdir, find] at h
      split at h
      · rename_i hsearch
        have hstr : (argvOf (name :: c :: args)).str 1 = c := hws.str 1
        obtain ⟨-, hsp, hnul⟩ := hws.word c (by simp)
        have hlen := hsearch.1
        rw [dirName, List.length_append, List.length_singleton] at hlen
        have hargc : ((name :: c :: args).length : ℤ) ≠ 1 := by simp; omega
        have hslot : argvOf (name :: c :: args) 1 = argvOf (cdWords (some c)) 1 := rfl
        rw [cdMain, cd_eq hblocks.dirs hat.mem ⟨by omega, hsp, hnul⟩ hsearch hargc hslot hat.ino,
          hstr]
        cases hlookup : T.child d c with
        | none =>
            rw [show lookupIn _ _ = none from hlookup] at h
            obtain ⟨rfl, rfl⟩ := Prod.mk.inj (Option.some.inj h)
            refine ⟨w, d, ?_, hat⟩
            rw [dirName, List.append_assoc]
            rfl
        | some i =>
            rw [show lookupIn _ _ = some i from hlookup, Option.bind_eq_bind,
              Option.bind_some] at h
            dsimp only at h
            split at h
            · rename_i hfit
              obtain ⟨rfl, rfl⟩ := Prod.mk.inj (Option.some.inj h)
              obtain ⟨w', d', hset, hat'⟩ :=
                hat.setWorkdir_step hnul hlookup hfit
              refine ⟨w', d', ?_, hat'⟩
              simp only [hset]
              rfl
            · exact absurd h (by simp)
      · exact absurd h (by simp)

/-- **A program does what it means.** -/
theorem run_eq (hblocks : T.StoredIn blocks) (hws : InTable (name :: args)) {cs cs' : Path}
    {w : Workdir} (hat : At T.toDirs cs w d) (program : Program) {out : List UInt8}
    (h : T.run d cs args program = some (out, cs')) :
    ∃ w' d', program.run blocks (name :: args).length (argvOf (name :: args)) w = some (out, w') ∧
      At T.toDirs cs' w' d' := by
  cases program with
  | echo =>
      obtain ⟨rfl, rfl⟩ := Prod.mk.inj (Option.some.inj h)
      have hecho := echoLoop_eq hws args.length 1 (by rw [List.length_cons, Nat.add_comm])
      refine ⟨w, d, ?_, hat⟩
      rw [Program.run, echoMain, Int.toNat_natCast, List.length_cons, Nat.add_sub_cancel, hecho]
      rfl
  | cat =>
      obtain ⟨out', hcat, heq⟩ := Option.map_eq_some_iff.1 h
      obtain ⟨rfl, rfl⟩ := Prod.mk.inj heq
      obtain ⟨r, hr⟩ := catMain_eq hblocks hat.mem hws hcat
      refine ⟨w, d, ?_, hat⟩
      rw [Program.run, hat.ino, hr]
      rfl
  | ls =>
      obtain ⟨out', hls, heq⟩ := Option.map_eq_some_iff.1 h
      obtain ⟨rfl, rfl⟩ := Prod.mk.inj heq
      obtain ⟨o, r, hr, rfl⟩ := lsMain_bytes hblocks hat.mem hls
      refine ⟨w, d, ?_, hat⟩
      rw [Program.run, hat.ino, Int.toNat_natCast, List.length_cons, hr]
      rfl
  | cd => exact cdMain_eq hblocks hws hat h
  | pwd =>
      obtain ⟨rfl, rfl⟩ := Prod.mk.inj (Option.some.inj h)
      refine ⟨w, d, ?_, hat⟩
      rw [Program.run, pwdMain, hat.holds.str_eq]

/-- The lookups of `app_spawn` for a program. -/
theorem spawn_lookup (hblocks : T.StoredIn blocks) (hws : InTable (name :: args)) {bin : ℕ}
    (hbin : lookupIn (T.entries 0) (chars ['b', 'i', 'n', '/']) = some bin)
    (hsearch : T.Searchable bin name) :
    dirLookup blocks 0 (chars ['b', 'i', 'n', '/']) = some (bin : ℤ) ∧
      dirLookup blocks bin ((argvOf (name :: args)).str 0) =
        some (match lookupIn (T.entries bin) name with
          | some i => (i : ℤ)
          | none => -1) := by
  obtain ⟨hne, hsp, hnul⟩ := hws.word name List.mem_cons_self
  have hmem : bin ∈ T.dirs := Dirs.child_mem T.root_mem (c := chars ['b', 'i', 'n']) hbin
  have hstr : (argvOf (name :: args)).str 0 = name := hws.str 0
  have hlook := Dirs.dirLookup_eq hblocks.dirs T.root_mem
    (Dirs.searchable_of_lookupIn (c := chars ['b', 'i', 'n']) (by decide) hbin) (by decide)
    (by decide) (by decide)
  rw [show lookupIn (T.entries 0) (dirName (chars ['b', 'i', 'n'])) = some bin from hbin] at hlook
  rw [hstr]
  exact ⟨hlook, Dirs.dirLookup_eq hblocks.dirs hmem hsearch hne hsp hnul⟩

/-- **The texts and the programs of the tree are there** when a process is spawned: the texts are
read, there is a slot, and for every program what is loaded is its binary. -/
structure Served (T : FileTree) (translation : Translation) (code : List Page → Option Program)
    (env : SpawnEnv) : Prop where
  stored : T.StoredIn env.blocks
  slot : ∃ j, env.machine.tab.findUnused = some j
  nprocs : env.machine.procNprocs + 1 < 2 ^ 31
  loads : ∀ i program, T.program i = some program → ∀ argc argv, ∃ mmu pages,
    elfLoad translation (env.machine.procNprocs + 1 : ℕ) (env.reader i) argc argv env.machine.mmu =
        some mmu ∧
      mmu.codeOf (env.machine.procNprocs + 1 : ℕ) = some pages ∧ code pages = some program

section Spawn

variable {translation : Translation} {code : List Page → Option Program} {env : SpawnEnv}
  (henv : T.Served translation code env) (hws : InTable (name :: args)) {bin : ℕ}
  (hbin : lookupIn (T.entries 0) (chars ['b', 'i', 'n', '/']) = some bin)
  (hsearch : T.Searchable bin name)
  (hfore : ((name :: args).getLast (List.cons_ne_nil _ _)).head? ≠ some 38)
include henv hws hbin hsearch hfore

/-- A command that is not there. -/
theorem serveSpawn_none (hi : lookupIn (T.entries bin) name = none) (w : Workdir) :
    serveSpawn translation code env ⟨.spawn, (name :: args).length, argvOf (name :: args)⟩ w =
      some (info (utf8 "sys_shell: command causes an error"), w) := by
  obtain ⟨hlook, hlook'⟩ := spawn_lookup henv.stored hws hbin hsearch
  rw [hi] at hlook'
  have hspawn : env.machine.appSpawn translation env.blocks env.reader
      ⟨.spawn, (name :: args).length, argvOf (name :: args)⟩ = some (-1, env.machine) := by
    unfold Machine.appSpawn
    rw [hlook, Option.bind_eq_bind, Option.bind_some, hlook', Option.bind_eq_bind, Option.bind_some,
      if_pos (by decide)]
  rw [serveSpawn, spawnArgc_argvOf (List.cons_ne_nil _ _) hws.length, if_neg hfore,
    Option.bind_eq_bind, Option.bind_some, if_neg (not_not.2 rfl), hspawn, Option.bind_eq_bind,
    Option.bind_some]
  exact if_pos (by decide)

/-- **A command in the foreground runs** with the words of the line, from any working directory. -/
theorem serveSpawn_program {i : ℕ} (hi : lookupIn (T.entries bin) name = some i)
    {program : Program} (hprogram : T.program i = some program) (w : Workdir) :
    serveSpawn translation code env ⟨.spawn, (name :: args).length, argvOf (name :: args)⟩ w =
      program.run env.blocks (name :: args).length (argvOf (name :: args)) w := by
  obtain ⟨hlook, hlook'⟩ := spawn_lookup henv.stored hws hbin hsearch
  rw [hi] at hlook'
  obtain ⟨j, hj⟩ := henv.slot
  have hargc := spawnArgc_argvOf (List.cons_ne_nil name args) hws.length
  rw [if_neg hfore] at hargc
  obtain ⟨k, halloc, -, hspawn⟩ := Machine.appSpawn_eq translation env.reader henv.nprocs hj hargc
    hlook hlook' (Int.natCast_nonneg i)
  obtain ⟨mmu, pages, hload, hpages, hcode⟩ := henv.loads i program hprogram
    ((name :: args).length : ℤ).toNat
    (some (ProcReq.args ⟨.spawn, (name :: args).length, argvOf (name :: args)⟩))
  rw [hload, Option.map_some] at hspawn
  have hnprocs : k.procNprocs = env.machine.procNprocs + 1 := by
    have hk := halloc.symm.trans (Kernel.procAlloc_eq hj henv.nprocs)
    rw [(Prod.mk.inj (Except.ok.inj hk)).2]
    rfl
  have hpages' : mmu.codeOf (k.procNprocs : ℕ) = some pages := by
    rw [hnprocs]
    exact hpages
  rw [serveSpawn, hargc, Option.bind_eq_bind, Option.bind_some, if_neg (not_not.2 rfl), hspawn,
    Option.bind_eq_bind, Option.bind_some]
  change (mmu.codeOf (k.procNprocs : ℕ) >>= _) = _
  rw [hpages', Option.bind_eq_bind, Option.bind_some, hcode]
  rfl

end Spawn

/-- The shell sends the words of an accepted line to `sys_proc`. -/
theorem shellCommand_accepted {line : List UInt8}
    (hkill : line ≠ chars ['k', 'i', 'l', 'l', 'a', 'l', 'l']) (hacc : Accepted line)
    (translation : Translation) (code : List Page → Option Program) (env : SpawnEnv) (req : ProcReq)
    (w : Workdir) :
    shellCommand translation code env line req w =
      serveSpawn translation code env ⟨.spawn, (words line).length, argvOf (words line)⟩ w := by
  rw [shellCommand, (shellRequest_spec hkill req).1 hacc, Option.bind_eq_bind, Option.bind_some]

theorem inTable_of_accepted {line : List UInt8} (hacc : Accepted line) (hnul : 0 ∉ line) :
    InTable (words line) :=
  ⟨hacc.1.1, hacc.1.2, fun _ hu => isWord_of_mem hnul hu⟩

/-- **A line does what it means.**  At a path of the tree, what the shell, `sys_proc` and the
program print for a line is what it means in the tree, and the working directory is then at the
path to which it leads. -/
theorem shellCommand_eq {translation : Translation} {code : List Page → Option Program}
    {env : SpawnEnv} (henv : T.Served translation code env) {line : List UInt8} (hnul : 0 ∉ line)
    {cs cs' : Path} {w : Workdir} (hat : At T.toDirs cs w d) {out : List UInt8}
    (h : T.answer cs line = some (out, cs')) (req : ProcReq) :
    ∃ w' d', shellCommand translation code env line req w = some (out, w') ∧
      At T.toDirs cs' w' d' := by
  rw [answer] at h
  split at h
  · -- `killall`, with no process to kill
    rename_i hkill
    obtain ⟨rfl, rfl⟩ := Prod.mk.inj (Option.some.inj h)
    refine ⟨w, d, ?_, hat⟩
    rw [shellCommand, shellRequest, if_pos hkill]
    rfl
  rename_i hkill
  split at h
  · rename_i hacc
    obtain ⟨rfl, rfl⟩ := Prod.mk.inj (Option.some.inj h)
    refine ⟨w, d, ?_, hat⟩
    rw [shellCommand, (shellRequest_spec hkill req).2 hacc]
    rfl
  rename_i hacc
  have hacc := not_not.1 hacc
  have hws := inTable_of_accepted hacc hnul
  rw [shellCommand_accepted hkill hacc]
  split at h
  · exact absurd h (by simp)
  rename_i name args heq
  rw [heq] at hws ⊢
  split at h
  · exact absurd h (by simp)
  rename_i hfore
  rw [List.getLastD_eq_getLast?, List.getLast?_eq_getLast_of_ne_nil (List.cons_ne_nil _ _),
    Option.getD_some] at hfore
  obtain ⟨bin, hbin, h⟩ := Option.bind_eq_some_iff.1 h
  obtain ⟨found, hfind, h⟩ := Option.bind_eq_some_iff.1 h
  rw [find] at hfind
  split at hfind
  · rename_i hsearch
    obtain rfl := Option.some.inj hfind
    cases hi : lookupIn (T.entries bin) name with
    | none =>
        rw [hi] at h
        obtain ⟨rfl, rfl⟩ := Prod.mk.inj (Option.some.inj h)
        exact ⟨w, d, serveSpawn_none henv hws hbin hsearch hfore hi w, hat⟩
    | some i =>
        rw [hi] at h
        obtain ⟨program, hprogram, h⟩ := Option.bind_eq_some_iff.1 h
        obtain ⟨d', hd', h⟩ := Option.bind_eq_some_iff.1 h
        obtain rfl : d' = d := Option.some.inj (hd'.symm.trans hat.resolve)
        rw [serveSpawn_program henv hws hbin hsearch hfore hi hprogram]
        exact run_eq henv.stored hws hat program h
  · exact absurd hfind (by simp)

variable (T) in
/-- A program is found in `/bin`. -/
def Offers (name : List UInt8) (program : Program) : Prop :=
  ∃ bin i, lookupIn (T.entries 0) (chars ['b', 'i', 'n', '/']) = some bin ∧
    T.Searchable bin name ∧ lookupIn (T.entries bin) name = some i ∧ T.program i = some program

/-- The first command of the shell goes to the home directory, from any contents of the variables
of the working directory. -/
theorem shellCommand_cd {translation : Translation} {code : List Page → Option Program}
    {env : SpawnEnv} (henv : T.Served translation code env)
    (hcd : T.Offers (chars ['c', 'd']) .cd) (req : ProcReq) {w : Workdir}
    (hlen : w.path.length = 128) :
    ∃ w' y, shellCommand translation code env (chars ['c', 'd']) req w = some ([], w') ∧
      At T.toDirs homePath w' y := by
  obtain ⟨bin, i, hbin, hsearch, hi, hprogram⟩ := hcd
  have hacc : Accepted (chars ['c', 'd']) := by decide
  have hwords : words (chars ['c', 'd']) = [chars ['c', 'd']] := by decide
  have hws := inTable_of_accepted hacc (by decide)
  rw [hwords] at hws
  obtain ⟨y, hy⟩ := Option.isSome_iff_exists.1 T.home
  obtain ⟨w', hhome, hat⟩ := cd_home henv.stored.dirs hy (argvOf [chars ['c', 'd']]) hlen
  refine ⟨w', y, ?_, hat⟩
  rw [shellCommand_accepted (by decide) hacc, hwords,
    serveSpawn_program henv hws hbin hsearch (by decide) hi hprogram, Program.run, cdMain,
    show (([chars ['c', 'd']] : List (List UInt8)).length : ℤ) = 1 from rfl, hhome]
  rfl

end FileTree

end Egos
