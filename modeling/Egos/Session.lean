/-
**A session at the terminal, from the keys to the screen.**

The shell prints a prompt with the working directory, reads a line from the terminal, and has it
executed: `sys_proc` looks the program up and loads it, the program asks the directory server and
the file server for what it prints, and the file server reads the disk that `mkfs` has built and
on which the paging device keeps its frames.  This module puts these parts together: it follows the
loop of the shell for as many lines as are typed, and compares what is printed with what the lines
mean in the tree of files that was put into the image.  The program that runs is the one whose
binary is in the image, and whose code pages are found in the frames of the new process.

Main definitions:

* `Egos.shellRound`, `Egos.shellMain` — a round of the loop of the shell, and `main`;
* `Egos.FileTree.session` — what the keys that are typed mean in a tree of files;
* `Egos.CanSpawn` — the states in which a command is spawned;
* `Egos.FileTree.ProgramsIn` — the programs of a tree are binaries of the table of `mkfs`;
* `Egos.shippedTree` — the files of `tools/mkfs.c`.

Main results:

* `Egos.FileTree.shellRounds_eq` — the rounds of the shell print what the lines mean;
* `Egos.CanSpawn.served` — on the image, the texts and the programs of the tree are there;
* `Egos.session_on_image` — **a session prints what its lines mean in the tree of the image.**
-/

import Egos.Commands
import Egos.Terminal

set_option autoImplicit false

namespace Egos

open CString (str)

/-! ### The loop of the shell -/

/-- `CRITICAL("Welcome to the egos-2000 shell!")` -/
def welcome : List UInt8 :=
  utf8 "\x1b[1;33m[CRITICAL] Welcome to the egos-2000 shell!\x1b[1;0m\r\n"

/-- The prompt, with the text of the working directory. -/
def prompt (workdir : List UInt8) : List UInt8 :=
  utf8 "\x1b[1;32m➜ \x1b[1;36m" ++ (workdir ++ utf8 "\x1b[1;0m ")

/-- What is given from outside in a round of the loop: what a request to spawn a process meets, what
the variable `req` holds before it is set, the variables of the terminal when `tty_read` is called,
and the polls and interrupts until it returns.  Between two calls, the driver discards what it
receives; a Ctrl+C there, at which the kernel prints a message, is not followed. -/
structure Round where
  env : SpawnEnv
  req : ProcReq
  tty : Tty
  evs : List TtyEvent

/-- The variables of the shell: the working directory and the buffer of the line. -/
structure ShellVars where
  workdir : Workdir
  buf : List UInt8

section Shell

variable (translation : Translation) (code : List Page → Option Program)

/-- A round of the loop of `main`, from the prompt on.  After an empty line the prompt comes again,
which is the next round. -/
def shellRound (r : Round) (s : ShellVars) : Option (List UInt8 × ShellVars) := do
  let shown := prompt (str s.workdir.path) ++ ttyReadOutput 256 r.evs r.tty s.buf
  let (ret, buf, _) ← ttyRead 256 r.evs r.tty s.buf
  if ret = 0 then some (shown, ⟨s.workdir, buf⟩)
  else do
    let (out, w) ← shellCommand translation code r.env (str buf) r.req s.workdir
    some (shown ++ out, ⟨w, buf⟩)

/-- Rounds of the loop, one after the other. -/
def shellRounds : List Round → ShellVars → Option (List UInt8 × ShellVars)
  | [], s => some ([], s)
  | r :: rs, s => do
      let (out, s) ← shellRound translation code r s
      let (outs, s) ← shellRounds rs s
      some (out ++ outs, s)

/-- `char buf[256] = "cd"` -/
def firstBuf : List UInt8 := chars ['c', 'd'] ++ List.replicate 254 0

/-- `main` of the shell, for some rounds. -/
def shellMain (env : SpawnEnv) (req : ProcReq) (rounds : List Round) (w : Workdir) :
    Option (List UInt8 × ShellVars) := do
  let (out, w) ← shellCommand translation code env (str firstBuf) req w
  let (outs, s) ← shellRounds translation code rounds ⟨w, firstBuf⟩
  some (welcome ++ (out ++ outs), s)

end Shell

/-! ### What the keys mean -/

namespace FileTree

variable (T : FileTree)

/-- What the keys that are typed after a prompt mean: what is printed, and the path after it. -/
def round (cs : Path) (keys : List UInt8) : Option (List UInt8 × Path) := do
  let shown := prompt (pathText cs) ++ editEcho 256 [] keys
  let (e, line, _) ← edit 256 [] keys
  if e = .ctrlC ∨ line = [] then some (shown, cs)
  else do
    let (out, cs) ← T.answer cs line
    some (shown ++ out, cs)

/-- **What a session means**: the keys that are typed after every prompt, from a path on. -/
def session : Path → List (List UInt8) → Option (List UInt8 × Path)
  | cs, [] => some ([], cs)
  | cs, keys :: rest => do
      let (out, cs) ← T.round cs keys
      let (outs, cs) ← session cs rest
      some (out ++ outs, cs)

variable {T} {translation : Translation} {code : List Page → Option Program}

/-- The line that is edited has the keys that were pressed. -/
theorem zero_notMem_edit {len : ℕ} (keys : List UInt8) :
    ∀ line, 0 ∉ line → 0 ∉ keys → ∀ e line' rest, edit len line keys = some (e, line', rest) →
      0 ∉ line' := by
  induction keys with
  | nil =>
      intro line _ _ e line' rest h
      exact absurd h (by simp [edit])
  | cons b keys ih =>
      intro line hline hkeys e line' rest h
      obtain ⟨hb, hkeys⟩ := List.ne_and_not_mem_of_not_mem_cons hkeys
      have hpush : 0 ∉ line ++ [b] := by
        rw [List.mem_append, List.mem_singleton, not_or]
        exact ⟨hline, hb⟩
      rw [edit] at h
      split at h
      · obtain ⟨-, rfl, -⟩ : .ctrlC = e ∧ line = line' ∧ keys = rest := by simpa using h
        exact hline
      split at h
      · obtain ⟨-, rfl, -⟩ : .enter = e ∧ line = line' ∧ keys = rest := by simpa using h
        exact hline
      split at h
      · exact ih _ (fun h0 => hline (List.mem_of_mem_dropLast h0)) hkeys e line' rest h
      split at h
      · obtain ⟨-, rfl, -⟩ : .full = e ∧ line ++ [b] = line' ∧ keys = rest := by simpa using h
        exact hpush
      · exact ih _ hpush hkeys e line' rest h

/-- **One round prints what its keys mean.** -/
theorem shellRound_eq {r : Round} (henv : T.Served translation code r.env)
    (hnul : 0 ∉ received r.evs)
    {cs cs' : Path} {s : ShellVars} {d : ℕ} (hat : At T.toDirs cs s.workdir d)
    (hbuf : s.buf.length = 256) {out : List UInt8}
    (h : T.round cs (received r.evs) = some (out, cs')) :
    ∃ s' d', shellRound translation code r s = some (out, s') ∧ At T.toDirs cs' s'.workdir d' ∧
      s'.buf.length = 256 := by
  obtain ⟨⟨e, line, rest⟩, hedit, h⟩ := Option.bind_eq_some_iff.1 h
  have hmax : 256 < 2 ^ 32 := by decide
  obtain ⟨⟨ret, buf, t, evs⟩, hread, hr⟩ := ttyLoop_spec hmax r.evs
    { r.tty with isReading := true } [] s.buf rfl (by decide) hbuf e line rest hedit
  have hout : ttyReadOutput 256 r.evs r.tty s.buf = editEcho 256 [] (received r.evs) :=
    ttyOutput_eq hmax r.evs { r.tty with isReading := true } [] s.buf rfl (by decide) hbuf
  have hret := hr.ret
  have hread' : ttyRead 256 r.evs r.tty s.buf = some (ret, buf, t, evs) := hread
  dsimp only at hret h
  rw [shellRound, hread', hout, hat.holds.str_eq, Option.bind_eq_bind, Option.bind_some]
  dsimp only
  split at h
  · -- an empty line, or Ctrl+C
    rename_i hempty
    obtain ⟨rfl, rfl⟩ := Prod.mk.inj (Option.some.inj h)
    have hzero : ret = 0 := by
      rw [hret]
      rcases hempty with he | hline
      · rw [if_pos he]
      · rw [hline, List.length_nil, ite_self]
    rw [if_pos hzero]
    exact ⟨_, d, rfl, hat, hr.length⟩
  · rename_i hempty
    obtain ⟨he, hline⟩ := not_or.1 hempty
    have hline0 : 0 ∉ line := zero_notMem_edit _ [] List.not_mem_nil hnul e line rest hedit
    obtain ⟨tail, hbuf'⟩ := hr.buf
    rw [if_neg he] at hbuf' hret
    have hstr : str buf = line := CString.Holds.str_eq ⟨hline0, tail, hbuf'⟩
    have hne : ret ≠ 0 := by
      rw [hret]
      exact fun h0 => hline (List.length_eq_zero_iff.1 h0)
    obtain ⟨⟨out', cs''⟩, hanswer, h⟩ := Option.bind_eq_some_iff.1 h
    obtain ⟨rfl, rfl⟩ := Prod.mk.inj (Option.some.inj h)
    obtain ⟨w', d', hcommand, hat'⟩ := shellCommand_eq henv hline0 hat hanswer r.req
    rw [if_neg hne, hstr, hcommand]
    exact ⟨_, d', rfl, hat', hr.length⟩

/-- **The rounds of the shell print what the keys mean.** -/
theorem shellRounds_eq (rounds : List Round) :
    ∀ cs s d, At T.toDirs cs s.workdir d → s.buf.length = 256 →
      (∀ r ∈ rounds, T.Served translation code r.env ∧ 0 ∉ received r.evs) →
      ∀ out cs', T.session cs (rounds.map fun r => received r.evs) = some (out, cs') →
        ∃ s' d', shellRounds translation code rounds s = some (out, s') ∧
          At T.toDirs cs' s'.workdir d' := by
  induction rounds with
  | nil =>
      intro cs s d hat _ _ out cs' h
      obtain ⟨rfl, rfl⟩ := Prod.mk.inj (Option.some.inj h)
      exact ⟨s, d, rfl, hat⟩
  | cons r rounds ih =>
      intro cs s d hat hbuf hrounds out cs' h
      obtain ⟨⟨henv, hnul⟩, hrest⟩ := List.forall_mem_cons.1 hrounds
      obtain ⟨⟨out₁, cs₁⟩, hround, h⟩ := Option.bind_eq_some_iff.1 h
      obtain ⟨⟨out₂, cs₂⟩, hsession, h⟩ := Option.bind_eq_some_iff.1 h
      obtain ⟨rfl, rfl⟩ := Prod.mk.inj (Option.some.inj h)
      obtain ⟨s₁, d₁, hrun, hat₁, hbuf₁⟩ := shellRound_eq henv hnul hat hbuf hround
      obtain ⟨s', d', hruns, hat'⟩ := ih cs₁ s₁ d₁ hat₁ hbuf₁ hrest out₂ cs₂ hsession
      refine ⟨s', d', ?_, hat'⟩
      rw [shellRounds, hrun, Option.bind_eq_bind, Option.bind_some]
      dsimp only
      rw [hruns]
      rfl

/-- **`main` of the shell prints what the keys mean**, from the home directory on. -/
theorem shellMain_eq {env : SpawnEnv} (henv : T.Served translation code env)
    (hcd : T.Offers (chars ['c', 'd']) .cd) (req : ProcReq) {rounds : List Round}
    (hrounds : ∀ r ∈ rounds, T.Served translation code r.env ∧ 0 ∉ received r.evs) {w : Workdir}
    (hw : w.path.length = 128) {out : List UInt8} {cs : Path}
    (h : T.session homePath (rounds.map fun r => received r.evs) = some (out, cs)) :
    ∃ s d, shellMain translation code env req rounds w = some (welcome ++ out, s) ∧
      At T.toDirs cs s.workdir d := by
  obtain ⟨w', y, hfirst, hat⟩ := shellCommand_cd henv hcd req hw
  have hlength : firstBuf.length = 256 := by
    rw [firstBuf, List.length_append, List.length_replicate]
    rfl
  obtain ⟨s, d, hruns, hat'⟩ := shellRounds_eq rounds homePath ⟨w', firstBuf⟩ y hat hlength
    hrounds out cs h
  have hstr : str firstBuf = chars ['c', 'd'] :=
    CString.Holds.str_eq ⟨by decide, List.replicate 253 0, rfl⟩
  refine ⟨s, d, ?_, hat'⟩
  rw [shellMain, hstr, hfirst, Option.bind_eq_bind, Option.bind_some]
  dsimp only
  rw [hruns]
  rfl

end FileTree

/-! ### The files of the system -/

/-- The directories of `contents`. -/
def shippedEntries : ℕ → List DirEntry
  | 0 => [entryOf ['.', '/'] 3 0 (by decide), entryOf ['.', '.', '/'] 3 0 (by decide),
      entryOf ['h', 'o', 'm', 'e', '/'] 3 1 (by decide),
      entryOf ['b', 'i', 'n', '/'] 3 6 (by decide)]
  | 1 => [entryOf ['.', '/'] 3 1 (by decide), entryOf ['.', '.', '/'] 3 0 (by decide),
      entryOf ['y', 'u', 'n', 'h', 'a', 'o', '/'] 3 2 (by decide),
      entryOf ['r', 'v', 'r', '/'] 3 3 (by decide),
      entryOf ['l', 'o', 'r', 'e', 'n', 'z', 'o', '/'] 3 4 (by decide)]
  | 2 => [entryOf ['.', '/'] 3 2 (by decide), entryOf ['.', '.', '/'] 3 1 (by decide),
      entryOf ['R', 'E', 'A', 'D', 'M', 'E'] 3 5 (by decide)]
  | 3 => [entryOf ['.', '/'] 3 3 (by decide), entryOf ['.', '.', '/'] 3 1 (by decide)]
  | 4 => [entryOf ['.', '/'] 3 4 (by decide), entryOf ['.', '.', '/'] 3 1 (by decide)]
  | 6 => [entryOf ['.', '/'] 3 6 (by decide), entryOf ['.', '.', '/'] 3 0 (by decide),
      entryOf ['e', 'c', 'h', 'o'] 3 7 (by decide), entryOf ['c', 'a', 't'] 3 8 (by decide),
      entryOf ['l', 's'] 3 9 (by decide), entryOf ['c', 'd'] 2 10 (by decide),
      entryOf ['p', 'w', 'd'] 2 11 (by decide), entryOf ['c', 'l', 'o', 'c', 'k'] 2 12 (by decide),
      entryOf ['c', 'r', 'a', 's', 'h', '1'] 2 13 (by decide),
      entryOf ['c', 'r', 'a', 's', 'h', '2'] 2 14 (by decide),
      entryOf ['u', 'l', 't'] 2 15 (by decide)]
  | _ => []

/-- `/home/yunhao/README` -/
def readme : List UInt8 :=
  utf8 "With only 2000 lines of code, egos-2000 implements boot loader, microSD driver, tty " ++
    utf8 "driver, memory paging, address translation, interrupt handling, process scheduling " ++
    utf8 "and messaging, system call, file system, shell, 7 user commands and the " ++
    utf8 "`mkfs/mkrom` tools."

/-- `contents` of `tools/mkfs.c` -/
def shippedContents : List (List UInt8) :=
  [utf8 "./   0 ../   0 home/   1 bin/   6 ",
    utf8 "./   1 ../   0 yunhao/   2 rvr/   3 lorenzo/   4 ",
    utf8 "./   2 ../   1 README   5 ",
    utf8 "./   3 ../   1 ",
    utf8 "./   4 ../   1 ",
    readme,
    utf8 "./   6 ../   0 echo   7 cat   8 ls   9 cd  10 pwd  11 clock  12 crash1  13 " ++
      utf8 "crash2  14 ult  15 ",
    utf8 "#../build/release/echo.elf",
    utf8 "#../build/release/cat.elf",
    utf8 "#../build/release/ls.elf",
    utf8 "#../build/release/cd.elf",
    utf8 "#../build/release/pwd.elf",
    utf8 "#../build/release/clock.elf",
    utf8 "#../build/release/crash1.elf",
    utf8 "#../build/release/crash2.elf",
    utf8 "#../build/release/ult.elf"]

theorem shippedContents_dir : ∀ i ∈ ({0, 1, 2, 3, 4, 6} : Finset ℕ),
    shippedContents[i]? = some (dirText (shippedEntries i)) ∧
      ¬ Mkfs.isName (dirText (shippedEntries i)) := by
  decide +kernel

theorem shippedContents_readme : shippedContents[5]? = some readme ∧ ¬ Mkfs.isName readme ∧
    readme.length < 512 ∧ 0 ∉ readme := by
  decide +kernel

/-- The programs of `/bin` that are followed. -/
def shippedProgram : ℕ → Option Program
  | 7 => some .echo
  | 8 => some .cat
  | 9 => some .ls
  | 10 => some .cd
  | 11 => some .pwd
  | _ => none

/-- The name of a directory other than `.` and `..`, or of a file. -/
theorem shippedEntries_other : ∀ d ∈ ({0, 1, 2, 3, 4, 6} : Finset ℕ), ∀ e ∈ shippedEntries d,
    e.name = dirName dot ∨ e.name = dirName dotdot ∨ slash ∉ e.name ∨
      (e.name = dirName e.name.dropLast ∧ e.name.dropLast ≠ [] ∧ slash ∉ e.name.dropLast) ∧
        e.ino ∈ ({0, 1, 2, 3, 4, 6} : Finset ℕ) ∧
          (if e.ino ∈ [2, 3, 4] then 1 else 0) = d := by
  decide +kernel

/-- **The tree of the files of the system.** -/
def shippedTree : FileTree where
  dirs := {0, 1, 2, 3, 4, 6}
  entries := shippedEntries
  parent := fun d => if d ∈ [2, 3, 4] then 1 else 0
  file := fun i => if i = 5 then some readme else none
  program := shippedProgram
  root_mem := by decide
  parent_root := by decide
  parent_mem := by decide
  nodup := by decide +kernel
  length_lt := by decide +kernel
  self_mem := by decide +kernel
  up_mem := by decide +kernel
  other := by
    intro d hd e he
    rcases shippedEntries_other d hd e he with h | h | h | ⟨hname, hdir⟩
    · exact Or.inl h
    · exact Or.inr (Or.inl h)
    · exact Or.inr (Or.inr (Or.inl h))
    · exact Or.inr (Or.inr (Or.inr ⟨⟨_, hname⟩, hdir⟩))
  home := by decide +kernel
  file_lt := by
    intro i t h
    split at h
    · exact Option.some.inj h ▸ shippedContents_readme.2.2.1
    · exact absurd h (by simp)
  file_nul := by
    intro i t h
    split at h
    · exact Option.some.inj h ▸ shippedContents_readme.2.2.2
    · exact absurd h (by simp)

theorem shippedTree_texts (i : ℕ) (t : List UInt8) (h : shippedTree.text i = some t) :
    shippedContents[i]? = some t ∧ ¬ Mkfs.isName t := by
  rw [FileTree.text] at h
  split at h
  · rename_i hi
    obtain rfl := Option.some.inj h
    exact shippedContents_dir i hi
  · change (if i = 5 then some readme else none) = some t at h
    split at h
    · rename_i hi
      obtain rfl := Option.some.inj h
      rw [hi]
      exact ⟨shippedContents_readme.1, shippedContents_readme.2.1⟩
    · exact absurd h (by simp)

theorem shippedTree_cd : shippedTree.Offers (chars ['c', 'd']) .cd :=
  ⟨6, 10, by decide +kernel, by decide +kernel, by decide +kernel, rfl⟩

/-- A binary whose segment starts with the given byte. -/
def taggedFile (tag : UInt8) (x : ℕ) : UInt8 :=
  if x = 512 then tag else fileWith 0x08005000 700 800 x

theorem taggedFile_isElf (tag : UInt8) :
    IsElf (hostFile (taggedFile tag)).bytes ⟨⟨512, 700⟩, 0x08005000, 800⟩ := by
  -- the tag is not in the first block
  have hfirst : fileBlock (taggedFile tag) 0 = fileBlock (fileWith 0x08005000 700 800) 0 := by
    funext k
    have hk := k.isLt
    exact if_neg (by omega)
  refine hostFile_isElf ?_ ?_
  · rw [hfirst]
    rfl
  · rw [hfirst]
    rfl

/-- The byte with which the binary of a program starts. -/
def Program.tag : Program → UInt8
  | .echo => 1
  | .cat => 2
  | .ls => 3
  | .cd => 4
  | .pwd => 5

/-- The program whose binary is in the code pages. -/
def taggedCode (pages : List Page) : Option Program :=
  [Program.echo, .cat, .ls, .cd, .pwd].find? fun program =>
    pages.head?.map (fun page => page 0 0) = some program.tag

theorem taggedCode_eq (program : Program) :
    taggedCode ([0, 1, 2].map (codePage (bytesOf (hostFile (taggedFile program.tag)).bytes)
      ⟨512, 700⟩)) = some program := by
  have hfirst : codePage (bytesOf (hostFile (taggedFile program.tag)).bytes) ⟨512, 700⟩ 0 0 0 =
      program.tag := (hostFile_getD (taggedFile program.tag) (show 512 < 1212 by decide)).trans rfl
  rw [taggedCode, List.map_cons, List.head?_cons, Option.map_some, hfirst]
  cases program <;> rfl

/-- The binaries of the host. -/
def shippedHost (file : List UInt8) : Mkfs.HostFile :=
  match (List.range 16).find? fun i => shippedContents[i]? = some (35 :: file) with
  | some i => hostFile (taggedFile (((shippedProgram i).map Program.tag).getD 0))
  | none => hostFile (taggedFile 0)

theorem exists_shippedImage : ∃ image,
    Mkfs.main shippedHost [hostFile (taggedFile 0)] shippedContents (fun _ => 0) = .ok image :=
  Mkfs.exists_image (by decide) (by decide +kernel) (by decide +kernel) (by decide +kernel)
    (by decide +kernel)

/-- A round in which the keys come one after the other. -/
def typed (env : SpawnEnv) (keys : List UInt8) : Round :=
  ⟨env, ⟨.exit, 0, fun _ _ => 0⟩, ⟨0, false⟩, keys.map fun b => .poll (some b)⟩

theorem received_typed (env : SpawnEnv) (keys : List UInt8) :
    received (typed env keys).evs = keys := by
  change received (keys.map fun b => .poll (some b)) = keys
  induction keys with
  | nil => rfl
  | cons b keys ih =>
      rw [List.map_cons, received, ih]

/-! ### The image -/

/-- **The states in which a command is spawned.**  The memory has come from its start by a run of
the system, and so has the disk when the file server reads it; there is a slot, a pid and five
frames for a new process, which does not run before it is loaded; and on the Arty board no store of
the loader finds its slot evicted, with any segment that fits. -/
structure CanSpawn (p : Paging) (translation : Translation) (env : SpawnEnv) : Prop where
  run : ∃ es, (Mmu.init p).events es = some env.machine.mmu ∧
    Runs.EveryStep Mmu.event (fun m e _ => e.Proper m) (Mmu.init p) es
  reads : ∃ es m stale, (Mmu.init p).events es = some m ∧ env.blocks = fileBlocks stale m.disk
  slot : ∃ j, env.machine.tab.findUnused = some j
  nprocs : env.machine.procNprocs + 1 < 2 ^ 31
  new : env.machine.mmu.New (env.machine.procNprocs + 1 : ℕ)
  room : used env.machine.mmu.table + 5 ≤ 256
  mappable : translation = .pageTable → ((env.machine.procNprocs + 1 : ℕ) : ℤ) < 32
  live : ∀ n, ∀ b ∈ env.before n ++ env.after n, b.Live (env.machine.procNprocs + 1 : ℕ)
  inPlace : env.machine.mmu.platform ≠ .arty ∨ ∀ (ino : ℕ) (ph : ProgramHeader),
    ph.pFilesz ≤ APPS_SIZE → LoadsInPlace (env.machine.procNprocs + 1 : ℕ) (env.reader ino) ph
      (env.reader ino 0 env.machine.mmu).1

/-- **The programs of the tree are binaries of the table**: for every program, the table has the
name of a binary, and the code pages of its segment are those of the program. -/
def FileTree.ProgramsIn (T : FileTree) (host : List UInt8 → Mkfs.HostFile)
    (contents : List (List UInt8)) (code : List Page → Option Program) : Prop :=
  ∀ i program, T.program i = some program → ∃ file ph, contents[i]? = some (35 :: file) ∧
    IsElf (host file).bytes ph ∧ ph.pVaddr = APPS_ENTRY.toNat ∧ ph.pFilesz ≤ APPS_SIZE ∧
    code ([0, 1, 2].map (codePage (bytesOf (host file).bytes) ph.toProgramHeader)) = some program

section Image

open Mkfs

variable {host : List UInt8 → HostFile} {kernels : List HostFile} {contents : List (List UInt8)}
  {buf : Buf} {image : List UInt8} {p : Paging} {T : FileTree} {translation : Translation}
  {code : List Page → Option Program} {env : SpawnEnv}

/-- **The texts and the programs of the tree are on the image**: whatever has happened, the texts
are read from the disk, and the binaries are loaded from it. -/
theorem CanSpawn.served (h : CanSpawn p translation env) (hkernels : kernels.length ≤ grassNexec)
    (hlen : contents.length ≤ ninodes) (hfits : ∀ entry ∈ contents, Mkfs.Fits host entry)
    (hmain : main host kernels contents buf = .ok image)
    (hdisk : ∀ b < 8192, p.disk b = Mkfs.imageBlock image b)
    (htexts : ∀ i t, T.text i = some t → contents[i]? = some t ∧ ¬ isName t)
    (hprograms : T.ProgramsIn host contents code) : T.Served translation code env := by
  obtain ⟨F, hholds, hfiles⟩ := files_of_main hkernels hlen hfits hmain
  refine ⟨?_, h.slot, h.nprocs, ?_⟩
  · intro i t ht
    obtain ⟨es, m, stale, hrun, hblocks⟩ := h.reads
    obtain ⟨-, hkept⟩ := image_kept hdisk hrun
    obtain ⟨hget, hname⟩ := htexts i t ht
    rw [hblocks]
    exact fileBlocks_text (treediskRead_kept hfiles hkept m.disk fun _ _ _ => rfl) hholds hlen hget
      hname stale
  · intro i program hprogram argc argv
    obtain ⟨file, ph, hentry, helf, hvaddr, hsize, hcode⟩ := hprograms i program hprogram
    obtain ⟨es, hrun, hproper⟩ := h.run
    obtain ⟨-, hkept⟩ := image_kept hdisk hrun
    obtain ⟨own, hpriv⟩ := Mmu.events_private ⟨_, (Spaces.start_ok p).mmu⟩ hproper hrun
    have hino : toUint (i : ℤ) = i := by
      obtain ⟨hlt, -⟩ := List.getElem?_eq_some_iff.1 hentry
      have hlen' : contents.length ≤ 128 := hlen
      unfold toUint
      omega
    have hreader : env.reader i = (appRead env.before env.after env.stale i).read := by
      rw [SpawnEnv.reader, hino]
    have hplace := h.inPlace.imp_right fun hall => hall i ph.toProgramHeader hsize
    rw [hreader] at hplace ⊢
    obtain ⟨mmu, own', hload, hpriv', hcodeImage⟩ :=
      (appRead_delivers hkernels hlen hfits hmain hkept hentry env.before env.after
        env.stale).codeImage helf hpriv h.new h.live hvaddr hsize h.room h.mappable hplace argc argv
    exact ⟨mmu, _, hload, hcodeImage.codeOf_eq hpriv' h.new.pos, hcode⟩

/-- **A session prints what its lines mean in the tree of the image.**  If the disk had the image of
`mkfs` at the start, with the texts and the programs of the tree in its table, then in whatever
states the commands are spawned, and whatever the shell finds in its variables, for all timings of
the keys that are typed: what the shell prints, and the programs whose binaries are loaded from the
image, after the first `cd` of the shell, is what the prompts, the keys and the lines mean in the
tree.  The working directory is then at the path to which the lines lead, both as a text and as an
inode number. -/
theorem session_on_image (host : List UInt8 → HostFile) (kernels : List HostFile)
    (hkernels : kernels.length ≤ grassNexec) (contents : List (List UInt8))
    (hlen : contents.length ≤ ninodes) (hfits : ∀ entry ∈ contents, Mkfs.Fits host entry)
    (buf : Buf) (image : List UInt8) (hmain : main host kernels contents buf = .ok image)
    (p : Paging) (hdisk : ∀ b < 8192, p.disk b = Mkfs.imageBlock image b) (T : FileTree)
    (htexts : ∀ i t, T.text i = some t → contents[i]? = some t ∧ ¬ isName t)
    (code : List Page → Option Program) (hprograms : T.ProgramsIn host contents code)
    (hcd : T.Offers (chars ['c', 'd']) .cd) (translation : Translation) (env : SpawnEnv)
    (req : ProcReq) (rounds : List Round)
    (hspawn : ∀ e ∈ env :: rounds.map Round.env, CanSpawn p translation e)
    (hkeys : ∀ r ∈ rounds, 0 ∉ received r.evs) (w : Workdir) (hw : w.path.length = 128)
    (out : List UInt8) (cs : Path)
    (h : T.session homePath (rounds.map fun r => received r.evs) = some (out, cs)) :
    ∃ s d, shellMain translation code env req rounds w = some (welcome ++ out, s) ∧
      str s.workdir.path = pathText cs ∧ T.resolve 0 cs = some d ∧ s.workdir.ino = d := by
  have hserved : ∀ e ∈ env :: rounds.map Round.env, T.Served translation code e := fun e he =>
    (hspawn e he).served hkernels hlen hfits hmain hdisk htexts hprograms
  obtain ⟨s, d, hmain', hat⟩ := FileTree.shellMain_eq (hserved env List.mem_cons_self) hcd req
    (fun r hr => ⟨hserved r.env (List.mem_cons_of_mem _ (List.mem_map_of_mem hr)), hkeys r hr⟩)
    hw h
  exact ⟨s, d, hmain', hat.holds.str_eq, hat.resolve, hat.ino⟩

end Image

/-- The process table when a command is spawned: the four processes of the system are there, and `n`
pids have been handed out. -/
def sysMachine (m : Mmu) (n : ℕ) : Machine where
  procSet j := if j.val < 4 then ⟨j + 1, if j = 0 then .running else .waitToRecv, 0, fun _ => 0, 0⟩
    else ⟨0, .unused, 0, fun _ => 0, 0⟩
  procCurrIdx := 0
  procNprocs := n
  mmu := m
  mepc := 0
  registers := fun _ => 0

/-- While a command is loaded, the file server is switched in for every block. -/
def sysEnv (m : Mmu) (n : ℕ) : SpawnEnv where
  machine := sysMachine m n
  blocks := fileBlocks (fun _ => nullBlock) m.disk
  before := fun _ => [.softTlbSwitch 2]
  after := fun _ => [.softTlbSwitch 1]
  stale := fun _ => nullBlock

theorem sysEnv_canSpawn {p : Paging} {m : Mmu} {es : List Mmu.Event}
    (hrun : (Mmu.init p).events es = some m)
    (hproper : Runs.EveryStep Mmu.event (fun m e _ => e.Proper m) (Mmu.init p) es)
    (hused : used m.table = 5) (hcurr : m.currVmPid = 1) (hqemu : m.platform ≠ .arty)
    (hown : ∀ j q, m.Owned j q → q = 1) {n : ℕ} (hn : 4 ≤ n) (hn' : n + 1 < 2 ^ 31) :
    CanSpawn p .softTlb (sysEnv m n) := by
  refine ⟨⟨es, hrun, hproper⟩, ⟨es, m, fun _ => nullBlock, hrun, rfl⟩, ⟨4, rfl⟩, hn',
    ⟨?_, ?_, ?_⟩, ?_, fun htr => absurd htr (by decide), ?_, Or.inl hqemu⟩
  · change ((n + 1 : ℕ) : ℤ) ≠ 0
    omega
  · change m.currVmPid ≠ ((n + 1 : ℕ) : ℤ)
    omega
  · intro i hi
    have hone : ((n + 1 : ℕ) : ℤ) = 1 := hown i _ hi
    omega
  · change used m.table + 5 ≤ 256
    omega
  · intro k b hb
    change b ∈ [VmAct.softTlbSwitch 2, VmAct.softTlbSwitch 1] at hb
    change b.Live ((n + 1 : ℕ) : ℤ)
    rcases List.mem_cons.1 hb with rfl | hb
    · exact ⟨by decide, by omega⟩
    · rw [List.mem_singleton.1 hb]
      exact ⟨by decide, by omega⟩

/-- The programs of the tree are those of the host. -/
theorem shippedTree_programs : shippedTree.ProgramsIn shippedHost shippedContents taggedCode := by
  intro i program h
  have hbinary : ∀ i program, shippedProgram i = some program → ∃ file,
      shippedContents[i]? = some (35 :: file) ∧
        shippedHost file = hostFile (taggedFile program.tag) := by
    intro i program h
    unfold shippedProgram at h
    split at h
    all_goals first
      | exact absurd h.symm (Option.some_ne_none program)
      | (obtain rfl := Option.some.inj h
         exact ⟨_, rfl, rfl⟩)
  obtain ⟨file, hentry, hfile⟩ := hbinary i program h
  refine ⟨file, ⟨⟨512, 700⟩, 0x08005000, 800⟩, hentry, ?_, rfl, by decide, ?_⟩
  · rw [hfile]
    exact taggedFile_isElf program.tag
  · rw [hfile]
    exact taggedCode_eq program

/-- The keys `cat README`, `cd ..` and `pwd`, on the image of the files of the system. -/
theorem session_on_image_shipped : ∃ image m s,
    Mkfs.main shippedHost [hostFile (taggedFile 0)] shippedContents (fun _ => 0) = .ok image ∧
    (Mmu.init (imageBoard .qemuLatest image)).events (firstProcess 0) = some m ∧
    shellMain .softTlb taggedCode (sysEnv m 4) ⟨.exit, 0, fun _ _ => 0⟩
        [typed (sysEnv m 5) (utf8 "cat README\r"), typed (sysEnv m 6) (utf8 "cd ..\r"),
          typed (sysEnv m 7) (utf8 "pwd\r")]
        ⟨0, List.replicate 128 0⟩ =
      some (welcome ++ (prompt (utf8 "/home/yunhao") ++ utf8 "cat README\r\n" ++ readme ++
        utf8 "\r\n" ++ prompt (utf8 "/home/yunhao") ++ utf8 "cd ..\r\n" ++
        prompt (utf8 "/home") ++ utf8 "pwd\r\n" ++ utf8 "/home\r\n"), s) ∧
    str s.workdir.path = utf8 "/home" ∧ s.workdir.ino = 1 := by
  obtain ⟨image, himage⟩ := exists_shippedImage
  obtain ⟨m, hm, hproper, hused, hcurr, hplatform, hown⟩ :=
    exists_firstProcess (p := imageBoard .qemuLatest image) (i := 0) (by decide) himage
      (fun _ _ => rfl) (by decide) (taggedFile_isElf 0) rfl (by decide)
  have hqemu : m.platform ≠ .arty := by
    rw [hplatform]
    exact fun h => Platform.noConfusion h
  have hsession : shippedTree.session homePath
      [utf8 "cat README\r", utf8 "cd ..\r", utf8 "pwd\r"] =
        some (prompt (utf8 "/home/yunhao") ++ utf8 "cat README\r\n" ++ readme ++
          utf8 "\r\n" ++ prompt (utf8 "/home/yunhao") ++ utf8 "cd ..\r\n" ++
          prompt (utf8 "/home") ++ utf8 "pwd\r\n" ++ utf8 "/home\r\n",
          [chars ['h', 'o', 'm', 'e']]) := by
    decide +kernel
  have hnul : ∀ keys ∈ [utf8 "cat README\r", utf8 "cd ..\r", utf8 "pwd\r"], 0 ∉ keys := by
    decide +kernel
  have hspawn : ∀ n, 4 ≤ n → n ≤ 7 → CanSpawn (imageBoard .qemuLatest image) .softTlb
      (sysEnv m n) := fun n hn hn' =>
    sysEnv_canSpawn hm hproper hused hcurr hqemu hown hn (by omega)
  obtain ⟨s, d, hmain, hpath, hres, hino⟩ := session_on_image shippedHost
    [hostFile (taggedFile 0)] (by decide) shippedContents (by decide +kernel) (by decide +kernel)
    (fun _ => 0) image himage (imageBoard .qemuLatest image) (fun _ _ => rfl) shippedTree
    shippedTree_texts taggedCode shippedTree_programs shippedTree_cd .softTlb (sysEnv m 4)
    ⟨.exit, 0, fun _ _ => 0⟩
    [typed (sysEnv m 5) (utf8 "cat README\r"), typed (sysEnv m 6) (utf8 "cd ..\r"),
      typed (sysEnv m 7) (utf8 "pwd\r")]
    (fun e he => by
      simp only [List.map_cons, List.map_nil, typed, List.mem_cons, List.not_mem_nil,
        or_false] at he
      rcases he with rfl | rfl | rfl | rfl
      · exact hspawn 4 (by omega) (by omega)
      · exact hspawn 5 (by omega) (by omega)
      · exact hspawn 6 (by omega) (by omega)
      · exact hspawn 7 (by omega) (by omega))
    (fun r hr => by
      simp only [List.mem_cons, List.not_mem_nil, or_false] at hr
      rcases hr with rfl | rfl | rfl
      · rw [received_typed]
        exact hnul _ (by simp)
      · rw [received_typed]
        exact hnul _ (by simp)
      · rw [received_typed]
        exact hnul _ (by simp))
    ⟨0, List.replicate 128 0⟩ List.length_replicate _ _
    (by simpa only [List.map_cons, List.map_nil, received_typed] using hsession)
  have hd : some d = some 1 := hres.symm.trans (by decide +kernel)
  refine ⟨image, m, s, himage, hm, hmain, hpath.trans (by decide +kernel), ?_⟩
  rw [hino, Option.some.inj hd]
  rfl

end Egos
