/-
**The working directory** (`apps/user/cd.c`).

The kernel keeps the working directory twice: as an inode number and as the text of its path.  `cd`
gets the new inode number from the directory server, and edits the path in place: it appends a name,
or goes back to the last slash.  This module models `cd` on the bytes of the path, and compares it
with a walk in the tree of directories.

Main definitions:

* `Egos.Workdir`, `Egos.cd`, `Egos.cdRun` — the state, the command, and a sequence of commands;
* `Egos.Dirs`, `Egos.DirTree` — trees of directories in the format of `mkfs`;
* `Egos.Dirs.resolve` — resolving a path, component by component;
* `Egos.Dirs.walk` — the path to which a sequence of commands leads.

Main results:

* `Egos.Dirs.dirLookup_eq` — the directory server finds the names of the tree;
* `Egos.trim_spec` — the loop that goes back to the last slash;
* `Egos.At.cd` — one command follows the walk in the tree;
* `Egos.workdir_agrees` — **the path and the inode number stay in agreement**.
-/

import Egos.Directory
import Mathlib.Data.Finset.Basic
import Mathlib.Tactic.FinCases

set_option autoImplicit false

namespace Egos

open CString

/-! ### The command -/

/-- `'/'` -/
def slash : UInt8 := 47

/-- The working directory: `workdir_ino` and the array `workdir` of `struct grass`. -/
structure Workdir where
  ino : ℤ
  path : List UInt8

/-- `dir_lookup`, which asks the directory server.  The first blocks of the inodes are given; the
name is copied to an array of 32 bytes. -/
def dirLookup (blocks : ℤ → Block) (dirIno : ℤ) (name : List UInt8) : Option ℤ := do
  let _ ← strcpy (List.replicate 32 0) name
  let (ino, _) ← dirDoLookup (blocks dirIno) name
  some (if ino ≠ -1 then ino else -1)

/-- `while (workdir[len] != '/') workdir[len--] = 0`.  Below the index 0 there is nothing. -/
def trim : ℕ → List UInt8 → Option (List UInt8 × ℕ)
  | 0, buf => do
      let c ← buf[0]?
      if c ≠ slash then none else some (buf, 0)
  | len + 1, buf => do
      let c ← buf[len + 1]?
      if c ≠ slash then trim len (buf.set (len + 1) 0) else some (buf, len + 1)

/-- The end of `main` of `cd`, after the directory has been found: the new inode number is set, and
the path is edited. -/
def setWorkdir (arg : List UInt8) (dirIno : ℤ) (w : Workdir) : Option (ℤ × Workdir) :=
  if arg = chars ['.', '/'] then some (0, { w with ino := dirIno })
  else do
    let len ← strlen w.path
    if arg ≠ chars ['.', '.', '/'] then do
      let path ← (if len > 1 then strcat w.path (chars ['/']) else some w.path)
      let path ← strcat path (arg.take (arg.length - 1))
      some (0, ⟨dirIno, path⟩)
    else do
      let (path, len) ← trim len w.path
      some (0, ⟨dirIno, if len ≠ 0 then path.set len 0 else path⟩)

/-- `main` of `cd`: the exit status and the new working directory.  A store past the end of an array
has no result. -/
def cd (blocks : ℤ → Block) (argc : ℤ) (argv : Argv) (w : Workdir) : Option (ℤ × Workdir) :=
  if argc = 1 then do
    let homeIno ← dirLookup blocks 0 (chars ['h', 'o', 'm', 'e', '/'])
    let ino ← dirLookup blocks homeIno (chars ['y', 'u', 'n', 'h', 'a', 'o', '/'])
    let path ← strcpy w.path (chars ['/', 'h', 'o', 'm', 'e', '/', 'y', 'u', 'n', 'h', 'a', 'o'])
    some (0, ⟨ino, path⟩)
  else do
    let arg ← strcat (List.ofFn (argv 1)) (chars ['/'])
    let dirIno ← dirLookup blocks w.ino (str arg)
    if dirIno = -1 then some (-1, w) else setWorkdir (str arg) dirIno w

/-- The words of a `cd` command. -/
def cdWords (arg : Option (List UInt8)) : List (List UInt8) := chars ['c', 'd'] :: arg.toList

/-- `cd` commands, one after the other. -/
def cdRun (blocks : ℤ → Block) : List (Option (List UInt8)) → Workdir → Option Workdir
  | [], w => some w
  | arg :: args, w => do
      let (_, w) ← cd blocks (cdWords arg).length (argvOf (cdWords arg)) w
      cdRun blocks args w

/-! ### Trees of directories -/

/-- The name of a directory in its parent. -/
def dirName (c : List UInt8) : List UInt8 := c ++ [slash]

/-- The names `.` and `..` -/
def dot : List UInt8 := chars ['.']

def dotdot : List UInt8 := chars ['.', '.']

/-- **The directories of a tree**, given by their inode numbers, their entries and their parents.
The names of directories end with a slash, those of files do not contain any. -/
structure Dirs where
  dirs : Finset ℕ
  entries : ℕ → List DirEntry
  parent : ℕ → ℕ
  root_mem : 0 ∈ dirs
  parent_root : parent 0 = 0
  parent_mem : ∀ d ∈ dirs, parent d ∈ dirs
  nodup : ∀ d ∈ dirs, ((entries d).map DirEntry.name).Nodup
  length_lt : ∀ d ∈ dirs, (dirText (entries d)).length < 512
  self_mem : ∀ d ∈ dirs, ∃ e ∈ entries d, e.name = dirName dot ∧ e.ino = d
  up_mem : ∀ d ∈ dirs, ∃ e ∈ entries d, e.name = dirName dotdot ∧ e.ino = parent d
  other : ∀ d ∈ dirs, ∀ e ∈ entries d, e.name = dirName dot ∨ e.name = dirName dotdot ∨
    slash ∉ e.name ∨
      ((∃ c, e.name = dirName c ∧ c ≠ [] ∧ slash ∉ c) ∧ e.ino ∈ dirs ∧ parent e.ino = d)

/-- **A tree of directories** that are so long that any argument of `cd` can be looked up. -/
structure DirTree extends Dirs where
  length_ge : ∀ d ∈ dirs, 32 ≤ (dirText (entries d)).length

/-- The inode number of a name in a directory. -/
def lookupIn (es : List DirEntry) (name : List UInt8) : Option ℕ :=
  (es.find? fun e => e.name = name).map DirEntry.ino

namespace Dirs

variable (T : Dirs)

/-- The directories are stored in the inodes. -/
def StoredIn (blocks : ℤ → Block) : Prop := ∀ d ∈ T.dirs, blocks d = dirBlock (T.entries d)

/-- The directory with a given name in a directory. -/
def child (d : ℕ) (c : List UInt8) : Option ℕ :=
  ((T.entries d).find? fun e => e.name = dirName c).map DirEntry.ino

/-- Resolving a path, component by component. -/
def resolve (d : ℕ) : List (List UInt8) → Option ℕ
  | [] => some d
  | c :: cs => (T.child d c).bind fun d' => resolve d' cs

/-- A name can be looked up in a directory: it is not longer than the array of the request and the
text of the directory, and it is not the inode number of an entry. -/
def Searchable (d : ℕ) (name : List UInt8) : Prop :=
  name.length ≤ 31 ∧ name.length ≤ (dirText (T.entries d)).length ∧
    ∀ e ∈ T.entries d, name ≠ decimal e.ino

instance (d : ℕ) (name : List UInt8) : Decidable (T.Searchable d name) :=
  inferInstanceAs (Decidable (_ ∧ _ ∧ _))

end Dirs

/-- The components of the path of the home directory. -/
def homePath : List (List UInt8) :=
  [chars ['h', 'o', 'm', 'e'], chars ['y', 'u', 'n', 'h', 'a', 'o']]

/-- The path after `cd`, to a directory that is there. -/
def stepPath (cs : List (List UInt8)) (c : List UInt8) : List (List UInt8) :=
  if c = dot then cs else if c = dotdot then cs.dropLast else cs ++ [c]

namespace Dirs

variable (T : Dirs)

/-- The path to which a command leads from a path: it stays the same if the directory is not
found. -/
def go (cs : List (List UInt8)) : Option (List UInt8) → List (List UInt8)
  | none => homePath
  | some c =>
      if ((T.resolve 0 cs).bind fun d => T.child d c) = none then cs
      else if c = dot then cs
      else if c = dotdot then cs.dropLast
      else cs ++ [c]

/-- The path to which a sequence of commands leads. -/
def walk (cs : List (List UInt8)) (args : List (Option (List UInt8))) : List (List UInt8) :=
  args.foldl T.go cs

end Dirs

/-- The text of a path. -/
def pathText (cs : List (List UInt8)) : List UInt8 :=
  if cs = [] then [slash] else cs.flatMap (slash :: ·)

/-- The components of the text of a path. -/
def components (path : List UInt8) : List (List UInt8) := (path.splitOn slash).filter (· ≠ [])

/-- An argument that the shell can pass to `cd`: a word, which has no space, of at most 30
characters. -/
def IsArg (c : List UInt8) : Prop := c.length ≤ 30 ∧ space ∉ c ∧ 0 ∉ c

instance (c : List UInt8) : Decidable (IsArg c) := inferInstanceAs (Decidable (_ ∧ _ ∧ _))

theorem dirName_inj {c c' : List UInt8} (h : dirName c = dirName c') : c = c' :=
  (List.append_inj' h rfl).1

/-! ### Lookups in the tree -/

section Tree

variable {T : Dirs} {d : ℕ}

/-- A directory that is found is an entry. -/
theorem Dirs.exists_of_child {c : List UInt8} {i : ℕ} (h : T.child d c = some i) :
    ∃ e ∈ T.entries d, e.name = dirName c ∧ e.ino = i := by
  obtain ⟨e, he, rfl⟩ := Option.map_eq_some_iff.1 h
  exact ⟨e, List.mem_of_find?_eq_some he, by simpa using List.find?_some he, rfl⟩

/-- An entry is found, since the names are distinct. -/
theorem Dirs.child_of_mem (hd : d ∈ T.dirs) {c : List UInt8} {e : DirEntry}
    (he : e ∈ T.entries d) (hname : e.name = dirName c) : T.child d c = some e.ino := by
  rw [Dirs.child]
  cases hfind : (T.entries d).find? fun e => e.name = dirName c with
  | none =>
      have hne := List.find?_eq_none.1 hfind e he
      exact absurd (decide_eq_true hname) hne
  | some e' =>
      have hname' : e'.name = dirName c := by simpa using List.find?_some hfind
      rw [List.inj_on_of_nodup_map (T.nodup d hd) (List.mem_of_find?_eq_some hfind) he
        (hname'.trans hname.symm), Option.map_some]

theorem Dirs.child_dot (hd : d ∈ T.dirs) : T.child d dot = some d := by
  obtain ⟨e, he, hname, hino⟩ := T.self_mem d hd
  rw [Dirs.child_of_mem hd he hname, hino]

theorem Dirs.child_dotdot (hd : d ∈ T.dirs) : T.child d dotdot = some (T.parent d) := by
  obtain ⟨e, he, hname, hino⟩ := T.up_mem d hd
  rw [Dirs.child_of_mem hd he hname, hino]

/-- Any other directory that is found is a child in the tree. -/
theorem Dirs.child_spec (hd : d ∈ T.dirs) {c : List UInt8} (hdot : c ≠ dot) (hdd : c ≠ dotdot)
    {i : ℕ} (h : T.child d c = some i) :
    i ∈ T.dirs ∧ T.parent i = d ∧ c ≠ [] ∧ slash ∉ c := by
  obtain ⟨e, he, hname, rfl⟩ := Dirs.exists_of_child h
  rcases T.other d hd e he with h1 | h2 | hfile | ⟨⟨c', hc', hne, hsl⟩, hmem, hpar⟩
  · exact absurd (dirName_inj (hname.symm.trans h1)) hdot
  · exact absurd (dirName_inj (hname.symm.trans h2)) hdd
  · exact absurd (hname ▸ List.mem_append_right _ (List.mem_singleton.2 rfl)) hfile
  · obtain rfl := dirName_inj (hname.symm.trans hc')
    exact ⟨hmem, hpar, hne, hsl⟩

theorem Dirs.child_mem (hd : d ∈ T.dirs) {c : List UInt8} {i : ℕ} (h : T.child d c = some i) :
    i ∈ T.dirs := by
  by_cases hdot : c = dot
  · subst hdot
    rw [Dirs.child_dot hd] at h
    exact Option.some.inj h ▸ hd
  · by_cases hdd : c = dotdot
    · subst hdd
      rw [Dirs.child_dotdot hd] at h
      exact Option.some.inj h ▸ T.parent_mem d hd
    · exact (Dirs.child_spec hd hdot hdd h).1

theorem Dirs.resolve_concat (cs : List (List UInt8)) (c : List UInt8) :
    T.resolve d (cs ++ [c]) = (T.resolve d cs).bind fun d' => T.child d' c := by
  induction cs generalizing d with
  | nil =>
      rw [List.nil_append, Dirs.resolve, Dirs.resolve, Option.bind_some]
      simp only [Dirs.resolve]
      cases T.child d c with
      | none => rfl
      | some i => rfl
  | cons c' cs ih =>
      rw [List.cons_append, Dirs.resolve, Dirs.resolve, Option.bind_assoc]
      exact congrArg _ (funext fun d' => ih)

/-- A path resolves to a directory. -/
theorem Dirs.resolve_mem (hd : d ∈ T.dirs) {cs : List (List UInt8)} {i : ℕ}
    (h : T.resolve d cs = some i) : i ∈ T.dirs := by
  induction cs generalizing d with
  | nil => exact Option.some.inj h ▸ hd
  | cons c cs ih =>
      obtain ⟨d', hd', hrest⟩ := Option.bind_eq_some_iff.1 h
      exact ih (Dirs.child_mem hd hd') hrest

/-- **The directory server finds the names of the tree.** -/
theorem Dirs.dirLookup_eq {blocks : ℤ → Block} (hblocks : T.StoredIn blocks) (hd : d ∈ T.dirs)
    {name : List UInt8} (hname : T.Searchable d name) (hne : name ≠ []) (hsp : space ∉ name)
    (hnul : 0 ∉ name) :
    dirLookup blocks d name = some (match lookupIn (T.entries d) name with
      | some i => (i : ℤ)
      | none => -1) := by
  obtain ⟨hlen, hshort, hnum⟩ := hname
  obtain ⟨n, hlookup⟩ := lookup_word (T.nodup d hd) (T.length_lt d hd) hshort hne hsp hnum
  have hroom : name.length < (List.replicate 32 (0 : UInt8)).length := by
    rw [List.length_replicate]
    omega
  obtain ⟨buf, hbuf, -⟩ := strcpy_spec hnul hroom
  rw [dirLookup, hbuf, hblocks d hd, hlookup, inodeOf, lookupIn]
  cases (T.entries d).find? fun e => e.name = name with
  | none => rfl
  | some e =>
      have he : (e.ino : ℤ) ≠ -1 := by omega
      simp only [Option.bind_eq_bind, Option.bind_some, if_pos he, Option.map_some]

/-- The name of a directory is no number. -/
theorem dirName_ne_decimal (c : List UInt8) (n : ℕ) : dirName c ≠ decimal n := by
  intro heq
  have hslash : slash ∈ decimal n := heq ▸ List.mem_append_right c (List.mem_singleton_self _)
  exact absurd (isdigit_of_mem_decimal hslash) (by decide)

/-- The name of a directory that is there can be looked up. -/
theorem Dirs.searchable_of_lookupIn {i : ℕ} {c : List UInt8} (hlen : (dirName c).length ≤ 31)
    (h : lookupIn (T.entries d) (dirName c) = some i) : T.Searchable d (dirName c) := by
  obtain ⟨e, hfind, -⟩ := Option.map_eq_some_iff.1 h
  have hname : e.name = dirName c := by simpa using List.find?_some hfind
  refine ⟨hlen, ?_, fun e' _ => dirName_ne_decimal c e'.ino⟩
  obtain ⟨pre, post, heq⟩ := List.append_of_mem (List.mem_of_find?_eq_some hfind)
  rw [heq, dirText_append, dirText_cons, DirEntry.text, ← hname, List.length_append,
    List.length_append, List.length_append]
  omega

end Tree

/-- Any argument of `cd` can be looked up in long directories. -/
theorem DirTree.searchable {T : DirTree} {d : ℕ} (hd : d ∈ T.dirs) {c : List UInt8}
    (hc : IsArg c) : T.Searchable d (dirName c) := by
  have hlen := hc.1
  have hge := T.length_ge d hd
  have hlength : (dirName c).length = c.length + 1 := by
    rw [dirName, List.length_append, List.length_singleton]
  exact ⟨by omega, by omega, fun e _ => dirName_ne_decimal c e.ino⟩

/-! ### The text of a path -/

theorem pathText_concat (cs : List (List UInt8)) (c : List UInt8) :
    pathText (cs ++ [c]) = cs.flatMap (slash :: ·) ++ slash :: c := by
  rw [pathText, if_neg (by simp), List.flatMap_append, List.flatMap_singleton]

theorem pathText_of_ne {cs : List (List UInt8)} (h : cs ≠ []) :
    pathText cs = cs.flatMap (slash :: ·) := if_neg h

/-- **The components of the text of a path.** -/
theorem components_pathText {cs : List (List UInt8)} (hcs : ∀ c ∈ cs, c ≠ [] ∧ slash ∉ c) :
    components (pathText cs) = cs := by
  have hjoin : ∀ cs : List (List UInt8), cs.flatMap (slash :: ·) =
      [slash].intercalate ([] :: cs) := by
    intro cs
    induction cs with
    | nil => rfl
    | cons c cs ih =>
        rw [List.flatMap_cons, ih]
        cases cs with
        | nil => simp [List.intercalate]
        | cons c' cs => simp [List.intercalate]
  by_cases hnil : cs = []
  · subst hnil
    decide
  · have hsplit : (pathText cs).splitOn slash = [] :: cs := by
      rw [pathText_of_ne hnil, hjoin]
      refine List.splitOn_intercalate slash (fun l hl => ?_) (List.cons_ne_nil _ _)
      rcases List.mem_cons.1 hl with rfl | hl
      · exact List.not_mem_nil
      · exact (hcs l hl).2
    rw [components, hsplit, List.filter_cons_of_neg (by simp), List.filter_eq_self]
    exact fun c hc => decide_eq_true (hcs c hc).1

/-- **Going back to the last slash.** -/
theorem trim_spec (p : List UInt8) {t : List UInt8} (ht : slash ∉ t) (rest : List UInt8) :
    trim (p.length + t.length) (p ++ slash :: (t ++ rest)) =
      some (p ++ slash :: (List.replicate t.length 0 ++ rest), p.length) := by
  induction t using List.reverseRecOn generalizing rest with
  | nil =>
      have hslash : (p ++ slash :: ([] ++ rest))[p.length]? = some slash := by
        rw [List.getElem?_append_right le_rfl, Nat.sub_self, List.getElem?_cons_zero]
      rw [List.length_nil, Nat.add_zero]
      cases hp : p.length with
      | zero =>
          rw [hp] at hslash
          rw [trim, hslash]
          rfl
      | succ n =>
          rw [hp] at hslash
          rw [trim, hslash]
          rfl
  | append_singleton t c ih =>
      have hc : c ≠ slash := fun h => ht (List.mem_append_right _ (h ▸ List.mem_singleton.2 rfl))
      have ht' : slash ∉ t := fun h => ht (List.mem_append_left _ h)
      have hidx : p.length + t.length + 1 = (p ++ slash :: t).length := by
        rw [List.length_append, List.length_cons]
        omega
      have hbuf : p ++ slash :: (t ++ [c] ++ rest) = (p ++ slash :: t) ++ c :: rest := by
        simp only [List.append_assoc, List.cons_append, List.nil_append]
      have hget : ((p ++ slash :: t) ++ c :: rest)[p.length + t.length + 1]? = some c := by
        rw [hidx, List.getElem?_append_right le_rfl, Nat.sub_self, List.getElem?_cons_zero]
      have hset : ((p ++ slash :: t) ++ c :: rest).set (p.length + t.length + 1) 0 =
          p ++ slash :: (t ++ 0 :: rest) := by
        rw [hidx, List.set_append_right _ _ le_rfl, Nat.sub_self, List.set_cons_zero,
          List.append_assoc, List.cons_append]
      rw [List.length_append, List.length_singleton, ← Nat.add_assoc, hbuf, trim, hget]
      simp only [Option.bind_eq_bind, Option.bind_some, if_pos hc]
      rw [hset, ih ht', List.replicate_succ', List.append_assoc, List.singleton_append]

/-! ### One command -/

section Command

variable {T : Dirs} {blocks : ℤ → Block}

/-- **The working directory is at a path of the tree**: the array holds the text of the path, and
the inode number is the one to which the path resolves. -/
structure At (T : Dirs) (cs : List (List UInt8)) (w : Workdir) (d : ℕ) : Prop where
  length : w.path.length = 128
  holds : Holds w.path (pathText cs)
  names : ∀ c ∈ cs, (c ≠ [] ∧ slash ∉ c) ∧ c ≠ dot ∧ c ≠ dotdot
  mem : d ∈ T.dirs
  resolve : T.resolve 0 cs = some d
  ino : w.ino = d

/-- The argument of a command, with the slash that is appended in its slot. -/
theorem strcat_arg {c : List UInt8} (hc : IsArg c) :
    ∃ arg, strcat (List.ofFn (argvOf (cdWords (some c)) 1)) (chars ['/']) = some arg ∧
      str arg = dirName c := by
  obtain ⟨hlen, -, hnul⟩ := hc
  have hslot : List.ofFn (argvOf (cdWords (some c)) 1) = c ++ List.replicate (32 - c.length) 0 :=
    ofFn_getD c 0 (by omega)
  have hholds : Holds (List.ofFn (argvOf (cdWords (some c)) 1)) c := by
    refine ⟨hnul, List.replicate (31 - c.length) 0, ?_⟩
    rw [hslot, show 32 - c.length = 31 - c.length + 1 by omega, List.replicate_succ]
  obtain ⟨arg, harg, hstr, -⟩ := hholds.strcat_spec (t := chars ['/']) (by decide)
    (by rw [List.length_ofFn]; exact Nat.add_lt_of_lt_sub (by simp [chars]; omega))
  exact ⟨arg, harg, hstr.str_eq⟩

theorem cdWords_ne_one (c : List UInt8) : ((cdWords (some c)).length : ℤ) ≠ 1 := by
  rw [cdWords, Option.toList_some, List.length_cons, List.length_singleton]
  decide

/-- `cd` with an argument looks it up. -/
theorem cd_eq {d : ℕ} (hblocks : T.StoredIn blocks) (hd : d ∈ T.dirs) {c : List UInt8}
    (hc : IsArg c) (hsearch : T.Searchable d (dirName c)) {argc : ℤ} (hargc : argc ≠ 1)
    {argv : Argv} (hargv : argv 1 = argvOf (cdWords (some c)) 1) {w : Workdir} (hw : w.ino = d) :
    cd blocks argc argv w = match T.child d c with
      | none => some (-1, w)
      | some i => setWorkdir (dirName c) i w := by
  have hmem : ∀ b, b ∉ c → b ≠ slash → b ∉ dirName c := by
    intro b hb hbs h
    rcases List.mem_append.1 h with h | h
    · exact hb h
    · exact hbs (List.mem_singleton.1 h)
  have hlook : dirLookup blocks d (dirName c) = some (match T.child d c with
      | some i => (i : ℤ)
      | none => -1) := Dirs.dirLookup_eq hblocks hd hsearch
    (List.append_ne_nil_of_right_ne_nil c (List.cons_ne_nil _ _)) (hmem _ hc.2.1 (by decide))
    (hmem _ hc.2.2 (by decide))
  obtain ⟨arg, harg, hstr⟩ := strcat_arg hc
  rw [cd, if_neg hargc, hargv, harg, Option.bind_eq_bind, Option.bind_some, hstr, hw, hlook,
    Option.bind_eq_bind, Option.bind_some]
  cases T.child d c with
  | none => rfl
  | some i =>
      have hi : ¬ (i : ℤ) = -1 := by omega
      exact if_neg hi

/-- **A directory that is not found leaves the working directory unchanged.** -/
theorem At.cd_missing {T : DirTree} {cs : List (List UInt8)} {w : Workdir} {d : ℕ}
    (h : At T.toDirs cs w d) (hblocks : T.StoredIn blocks) {c : List UInt8} (hc : IsArg c)
    (hchild : T.child d c = none) :
    cd blocks (cdWords (some c)).length (argvOf (cdWords (some c))) w = some (-1, w) := by
  rw [cd_eq hblocks h.mem hc (DirTree.searchable h.mem hc) (cdWords_ne_one c) rfl h.ino, hchild]

/-- `cd` without an argument goes to the home directory, from anywhere. -/
theorem cd_home {y : ℕ} (hblocks : T.StoredIn blocks) (hhome : T.resolve 0 homePath = some y)
    (argv : Argv) {w : Workdir} (hlen : w.path.length = 128) :
    ∃ w', cd blocks 1 argv w = some (0, w') ∧ At T homePath w' y := by
  obtain ⟨m, hm, hrest⟩ := Option.bind_eq_some_iff.1 hhome
  obtain ⟨y', hy, hend⟩ := Option.bind_eq_some_iff.1 hrest
  obtain rfl : y' = y := Option.some.inj hend
  have hlook := Dirs.dirLookup_eq hblocks T.root_mem (Dirs.searchable_of_lookupIn (by decide) hm)
    (by decide) (by decide) (by decide)
  have hlook' := Dirs.dirLookup_eq hblocks (Dirs.child_mem T.root_mem hm)
    (Dirs.searchable_of_lookupIn (by decide) hy) (by decide) (by decide) (by decide)
  rw [show lookupIn _ _ = some m from hm] at hlook
  rw [show lookupIn _ _ = some y' from hy] at hlook'
  have hroom : (chars ['/', 'h', 'o', 'm', 'e', '/', 'y', 'u', 'n', 'h', 'a', 'o']).length <
      w.path.length := by
    rw [hlen]
    decide
  obtain ⟨path, hpath, hholds, hplen⟩ := strcpy_spec (by decide) hroom
  refine ⟨⟨y', path⟩, ?_, hplen.trans hlen, hholds, by decide,
    Dirs.resolve_mem T.root_mem hhome, hhome, rfl⟩
  rw [cd, if_pos rfl]
  change (dirLookup blocks ((0 : ℕ) : ℤ) (dirName (chars ['h', 'o', 'm', 'e'])) >>= _) = _
  rw [hlook, Option.bind_eq_bind, Option.bind_some]
  change (dirLookup blocks (m : ℤ) (dirName (chars ['y', 'u', 'n', 'h', 'a', 'o'])) >>= _) = _
  rw [hlook', Option.bind_eq_bind, Option.bind_some, hpath]
  rfl

/-- Appending a name to the path. -/
theorem At.append {cs : List (List UInt8)} {w : Workdir} {d : ℕ} (h : At T cs w d)
    {c : List UInt8} (hnul : 0 ∉ c) (hfit : (pathText (cs ++ [c])).length < 128) :
    ∃ path path', (if (pathText cs).length > 1 then strcat w.path (chars ['/']) else some w.path) =
        some path ∧ strcat path c = some path' ∧ Holds path' (pathText (cs ++ [c])) ∧
        path'.length = 128 := by
  rw [pathText_concat] at hfit ⊢
  have hholds := h.holds
  have hwlen := h.length
  by_cases hnil : cs = []
  · subst hnil
    obtain ⟨path', hcat, hpath', hlen⟩ := hholds.strcat_spec hnul (by
      rw [hwlen, Nat.add_comm]
      exact hfit)
    exact ⟨w.path, path', if_neg (by decide), hcat, hpath', hlen.trans hwlen⟩
  · rw [List.length_append, List.length_cons] at hfit
    have hlong : (pathText cs).length > 1 := by
      obtain ⟨c', cs', rfl⟩ := List.exists_cons_of_ne_nil hnil
      have hne := (h.names c' List.mem_cons_self).1.1
      have := List.length_pos_iff.2 hne
      rw [pathText_of_ne hnil, List.flatMap_cons, List.length_append, List.length_cons]
      omega
    rw [pathText_of_ne hnil] at hholds hlong
    obtain ⟨path, hcat, hpath, hlen⟩ := hholds.strcat_spec (t := chars ['/']) (by decide) (by
      rw [hwlen]
      simp only [chars, List.map_cons, List.map_nil, List.length_singleton]
      omega)
    obtain ⟨path', hcat', hpath', hlen'⟩ := hpath.strcat_spec hnul (by
      rw [hlen, hwlen, List.length_append]
      simp only [chars, List.map_cons, List.map_nil, List.length_singleton]
      omega)
    refine ⟨path, path', ?_, hcat', ?_, hlen'.trans (hlen.trans hwlen)⟩
    · rw [pathText_of_ne hnil, if_pos hlong, hcat]
    · rwa [List.append_assoc] at hpath'

/-- Going back to the parent in the path. -/
theorem At.trim {cs : List (List UInt8)} {w : Workdir} {d : ℕ} (h : At T cs w d) :
    ∃ path len, Egos.trim (pathText cs).length w.path = some (path, len) ∧
      Holds (if len ≠ 0 then path.set len 0 else path) (pathText cs.dropLast) ∧
      (if len ≠ 0 then path.set len 0 else path).length = 128 := by
  -- the path is a text, a slash, and the last component
  obtain ⟨p, c, htext, hsl, hparent⟩ : ∃ p c, pathText cs = p ++ slash :: c ∧ slash ∉ c ∧
      pathText cs.dropLast = if p = [] then [slash] else p := by
    rcases List.eq_nil_or_concat cs with rfl | ⟨cs', c, rfl⟩
    · exact ⟨[], [], rfl, List.not_mem_nil, rfl⟩
    · rw [List.concat_eq_append] at h ⊢
      refine ⟨cs'.flatMap (slash :: ·), c, pathText_concat cs' c,
        (h.names c (List.mem_append_right _ (List.mem_singleton.2 rfl))).1.2, ?_⟩
      rw [List.dropLast_concat, pathText]
      cases cs' with
      | nil => rfl
      | cons c' cs' => rw [if_neg (List.cons_ne_nil _ _), if_neg (by simp)]
  obtain ⟨hnul, rest, hw⟩ := h.holds
  rw [htext] at hnul hw
  have hlen : w.path.length = 128 := h.length
  have ht : slash ∉ c ++ [0] := by
    rw [List.mem_append, List.mem_singleton]
    rintro (hc | h0)
    · exact hsl hc
    · exact absurd h0 (by decide)
  have hbuf : w.path = p ++ slash :: (c ++ [0] ++ rest) := by
    rw [hw]
    simp only [List.append_assoc, List.cons_append, List.nil_append]
  have hrun := trim_spec p ht rest
  have hstart : (pathText cs).length = p.length + (c ++ [0]).length := by
    rw [htext, List.length_append, List.length_cons, List.length_append, List.length_singleton]
  rw [← hbuf, ← hstart] at hrun
  have hsame : (p ++ slash :: (List.replicate (c ++ [0]).length 0 ++ rest)).length = 128 := by
    rw [← hlen, hbuf]
    simp only [List.length_append, List.length_cons, List.length_replicate]
  refine ⟨_, _, hrun, ?_, ?_⟩
  · rw [hparent]
    by_cases hp : p = []
    · subst hp
      rw [if_neg (by simp), if_pos rfl]
      refine ⟨by decide, List.replicate c.length 0 ++ rest, ?_⟩
      rw [List.length_append, List.length_singleton, List.replicate_succ]
      rfl
    · rw [if_pos (by rwa [Ne, List.length_eq_zero_iff]), if_neg hp]
      refine ⟨fun h0 => hnul (List.mem_append_left _ h0),
        List.replicate (c ++ [0]).length 0 ++ rest, ?_⟩
      rw [List.set_append_right _ _ le_rfl, Nat.sub_self, List.set_cons_zero]
  · split
    · rw [List.length_set]
      exact hsame
    · exact hsame

/-- The path without its last component resolves to the parent. -/
theorem At.resolve_parent {cs : List (List UInt8)} {w : Workdir} {d : ℕ} (h : At T cs w d) :
    T.resolve 0 cs.dropLast = some (T.parent d) := by
  have hres := h.resolve
  rcases List.eq_nil_or_concat cs with rfl | ⟨cs', c, rfl⟩
  · obtain rfl := Option.some.inj hres
    rw [T.parent_root]
    rfl
  · rw [List.concat_eq_append] at h hres ⊢
    rw [Dirs.resolve_concat] at hres
    obtain ⟨d', hd', hchild⟩ := Option.bind_eq_some_iff.1 hres
    obtain ⟨-, hdot, hdd⟩ := h.names c (List.mem_append_right _ (List.mem_singleton.2 rfl))
    obtain ⟨-, hparent, -⟩ :=
      Dirs.child_spec (Dirs.resolve_mem T.root_mem hd') hdot hdd hchild
    rw [List.dropLast_concat, hd', hparent]

/-- `cd ..` -/
theorem At.setWorkdir_up {cs : List (List UInt8)} {w : Workdir} {d : ℕ} (h : At T cs w d) :
    ∃ w', setWorkdir (dirName dotdot) (T.parent d) w = some (0, w') ∧
      At T cs.dropLast w' (T.parent d) := by
  obtain ⟨path, len, htrim, hholds, hlen⟩ := h.trim
  refine ⟨⟨T.parent d, if len ≠ 0 then path.set len 0 else path⟩, ?_, hlen, hholds,
    fun c hc => h.names c (List.mem_of_mem_dropLast hc), T.parent_mem d h.mem, h.resolve_parent,
      rfl⟩
  rw [setWorkdir, if_neg (by decide), h.holds.strlen_eq, Option.bind_eq_bind, Option.bind_some,
    if_neg (by decide), htrim]
  rfl

/-- `cd` to a child. -/
theorem At.setWorkdir_down {cs : List (List UInt8)} {w : Workdir} {d : ℕ} (h : At T cs w d)
    {c : List UInt8} (hnul : 0 ∉ c) (hdot : c ≠ dot) (hdd : c ≠ dotdot) {i : ℕ}
    (hchild : T.child d c = some i) (hfit : (pathText (cs ++ [c])).length < 128) :
    ∃ w', setWorkdir (dirName c) i w = some (0, w') ∧ At T (cs ++ [c]) w' i := by
  obtain ⟨hmem, -, hne, hsl⟩ := Dirs.child_spec h.mem hdot hdd hchild
  obtain ⟨path, path', hfirst, hcat, hholds, hlen⟩ := h.append hnul hfit
  have htake : (dirName c).take ((dirName c).length - 1) = c := by
    rw [dirName, List.length_append, List.length_singleton, Nat.add_sub_cancel, List.take_left' rfl]
  have hdot' : dirName c ≠ chars ['.', '/'] := fun heq => hdot (dirName_inj heq)
  have hdd' : dirName c ≠ chars ['.', '.', '/'] := fun heq => hdd (dirName_inj heq)
  refine ⟨⟨i, path'⟩, ?_, hlen, hholds, ?_, hmem, ?_, rfl⟩
  · rw [setWorkdir, if_neg hdot', h.holds.strlen_eq, Option.bind_eq_bind, Option.bind_some,
      if_pos hdd', hfirst, Option.bind_eq_bind, Option.bind_some, htake, hcat]
    rfl
  · intro c' hc'
    rcases List.mem_append.1 hc' with hc' | hc'
    · exact h.names c' hc'
    · rw [List.mem_singleton.1 hc']
      exact ⟨⟨hne, hsl⟩, hdot, hdd⟩
  · rw [Dirs.resolve_concat, h.resolve]
    exact hchild

/-- A directory that is found is set, and the path follows. -/
theorem At.setWorkdir_step {cs : List (List UInt8)} {w : Workdir} {d : ℕ} (h : At T cs w d)
    {c : List UInt8} (hnul : 0 ∉ c) {i : ℕ} (hchild : T.child d c = some i)
    (hfit : (pathText (stepPath cs c)).length < 128) :
    ∃ w' d', setWorkdir (dirName c) i w = some (0, w') ∧ At T (stepPath cs c) w' d' := by
  rw [stepPath] at hfit ⊢
  by_cases hdot : c = dot
  · subst hdot
    rw [Dirs.child_dot h.mem] at hchild
    obtain rfl := Option.some.inj hchild
    rw [if_pos rfl]
    exact ⟨_, d, rfl, h.length, h.holds, h.names, h.mem, h.resolve, rfl⟩
  · rw [if_neg hdot] at hfit ⊢
    by_cases hdd : c = dotdot
    · subst hdd
      rw [Dirs.child_dotdot h.mem] at hchild
      obtain rfl := Option.some.inj hchild
      obtain ⟨w', hset, hat⟩ := h.setWorkdir_up
      rw [if_pos rfl]
      exact ⟨w', T.parent d, hset, hat⟩
    · rw [if_neg hdd] at hfit ⊢
      obtain ⟨w', hset, hat⟩ := h.setWorkdir_down hnul hdot hdd hchild hfit
      exact ⟨w', i, hset, hat⟩

/-- **One command follows the walk in the tree.** -/
theorem At.cd {T : DirTree} {cs : List (List UInt8)} {w : Workdir} {d : ℕ}
    (h : At T.toDirs cs w d) (hblocks : T.StoredIn blocks) {y : ℕ}
    (hhome : T.resolve 0 homePath = some y) {arg : Option (List UInt8)}
    (harg : ∀ c, arg = some c → IsArg c) (hfit : (pathText (T.go cs arg)).length < 128) :
    ∃ r w' d', Egos.cd blocks (cdWords arg).length (argvOf (cdWords arg)) w = some (r, w') ∧
      At T.toDirs (T.go cs arg) w' d' := by
  cases arg with
  | none =>
      obtain ⟨w', hcd, hat⟩ := cd_home hblocks hhome (argvOf (cdWords none)) h.length
      exact ⟨0, w', y, hcd, hat⟩
  | some c =>
      have hc := harg c rfl
      have hgo : T.go cs (some c) = if T.child d c = none then cs else stepPath cs c := by
        rw [Dirs.go, h.resolve, Option.bind_some, stepPath]
      rw [hgo] at hfit ⊢
      rw [cd_eq hblocks h.mem hc (DirTree.searchable h.mem hc) (cdWords_ne_one c) rfl h.ino]
      cases hchild : T.child d c with
      | none => exact ⟨-1, w, d, rfl, by rwa [if_pos rfl]⟩
      | some i =>
          rw [hchild, if_neg (Option.some_ne_none i)] at hfit
          obtain ⟨w', d', hset, hat⟩ := h.setWorkdir_step hc.2.2 hchild hfit
          exact ⟨0, w', d', hset, by rwa [if_neg (Option.some_ne_none i)]⟩

end Command

/-! ### Sequences of commands -/

/-- **A sequence of commands follows the walk in the tree.** -/
theorem cdRun_spec {T : DirTree} {blocks : ℤ → Block} (hblocks : T.StoredIn blocks) {y : ℕ}
    (hhome : T.resolve 0 homePath = some y) (args : List (Option (List UInt8))) :
    ∀ cs w d, At T.toDirs cs w d → (∀ c, some c ∈ args → IsArg c) →
      (∀ k, (pathText (T.walk cs (args.take k))).length < 128) →
      ∃ w' d', cdRun blocks args w = some w' ∧ At T.toDirs (T.walk cs args) w' d' := by
  induction args with
  | nil => exact fun cs w d h _ _ => ⟨w, d, rfl, h⟩
  | cons arg args ih =>
      intro cs w d h hargs hfit
      have hone := hfit 1
      rw [List.take_succ_cons, List.take_zero] at hone
      obtain ⟨r, w', d', hcd, hat⟩ := h.cd hblocks hhome
        (fun c hc => hargs c (hc ▸ List.mem_cons_self)) hone
      obtain ⟨w'', d'', hrun, hat'⟩ := ih _ w' d' hat
        (fun c hc => hargs c (List.mem_cons_of_mem _ hc)) fun k => by
          have hk := hfit (k + 1)
          rwa [List.take_succ_cons] at hk
      refine ⟨w'', d'', ?_, hat'⟩
      rw [cdRun, hcd]
      exact hrun

/-- **The path and the inode number of the working directory stay in agreement.**  In every tree of
directories with `/home/yunhao`, from that directory, for every sequence of `cd` commands that keeps
the path below 128 characters, the commands end, and the path, resolved from the inode 0 component
by component, gives the inode number of the working directory; and a command whose directory is not
found leaves both unchanged. -/
theorem workdir_agrees (T : DirTree) (blocks : ℤ → Block) (hblocks : T.StoredIn blocks)
    (w : Workdir) (hlen : w.path.length = 128)
    (hpath : Holds w.path (chars ['/', 'h', 'o', 'm', 'e', '/', 'y', 'u', 'n', 'h', 'a', 'o']))
    (y : ℕ) (hhome : T.resolve 0 homePath = some y) (hino : w.ino = y)
    (args : List (Option (List UInt8))) (hargs : ∀ c, some c ∈ args → IsArg c)
    (hfit : ∀ k, (pathText (T.walk homePath (args.take k))).length < 128) :
    ∃ w' d, cdRun blocks args w = some w' ∧ str w'.path = pathText (T.walk homePath args) ∧
      T.resolve 0 (components (str w'.path)) = some d ∧ w'.ino = d ∧
      ∀ c, IsArg c → T.child d c = none →
        cd blocks (cdWords (some c)).length (argvOf (cdWords (some c))) w' = some (-1, w') := by
  have hat : At T.toDirs homePath w y :=
    ⟨hlen, hpath, by decide, Dirs.resolve_mem T.root_mem hhome, hhome, hino⟩
  obtain ⟨w', d, hrun, hat'⟩ := cdRun_spec hblocks hhome args _ w y hat hargs hfit
  have hstr := hat'.holds.str_eq
  refine ⟨w', d, hrun, hstr, ?_, hat'.ino, fun c hc hchild => hat'.cd_missing hblocks hc hchild⟩
  rw [hstr, components_pathText fun c hc => (hat'.names c hc).1, hat'.resolve]

theorem ino_lt_of_le_two {ino : ℕ} (h : ino ≤ 2) : ino < 2 ^ 31 := by omega

/-- An entry for one of the first three directories, in a wide column. -/
def wideEntry (c : List UInt8) (ino : ℕ) (hc : space ∉ dirName c ∧ 0 ∉ dirName c)
    (hino : ino ≤ 2) : DirEntry where
  name := dirName c
  gap := 20
  ino := ino
  name_ne := List.append_ne_nil_of_right_ne_nil c (List.cons_ne_nil slash [])
  name_space := hc.1
  name_nul := hc.2
  gap_pos := by decide
  ino_lt := ino_lt_of_le_two hino

/-- The directories `/`, `/home` and `/home/yunhao`, with the inode numbers 0, 1 and 2. -/
def homeTree : DirTree where
  dirs := {0, 1, 2}
  entries
    | 0 => [wideEntry dot 0 (by decide) (by decide), wideEntry dotdot 0 (by decide) (by decide),
        wideEntry (chars ['h', 'o', 'm', 'e']) 1 (by decide) (by decide)]
    | 1 => [wideEntry dot 1 (by decide) (by decide), wideEntry dotdot 0 (by decide) (by decide),
        wideEntry (chars ['y', 'u', 'n', 'h', 'a', 'o']) 2 (by decide) (by decide)]
    | _ => [wideEntry dot 2 (by decide) (by decide), wideEntry dotdot 1 (by decide) (by decide)]
  parent := fun d => d - 1
  root_mem := by decide
  parent_root := rfl
  parent_mem := by decide
  nodup := by decide
  length_ge := by decide
  length_lt := by decide
  self_mem := by decide
  up_mem := by decide
  other := by
    intro d hd e he
    fin_cases hd
    · fin_cases he
      · exact Or.inl rfl
      · exact Or.inr (Or.inl rfl)
      · exact Or.inr (Or.inr (Or.inr ⟨⟨_, rfl, by decide, by decide⟩, by decide, rfl⟩))
    · fin_cases he
      · exact Or.inl rfl
      · exact Or.inr (Or.inl rfl)
      · exact Or.inr (Or.inr (Or.inr ⟨⟨_, rfl, by decide, by decide⟩, by decide, rfl⟩))
    · fin_cases he
      · exact Or.inl rfl
      · exact Or.inr (Or.inl rfl)

set_option maxRecDepth 4000 in
/-- `cd ..` and `cd nowhere`, from the home directory: the working directory is then `/home`. -/
theorem workdir_agrees_home :
    ∃ w', cdRun (fun d => dirBlock (homeTree.entries d.toNat))
        [some dotdot, some (chars ['n', 'o', 'w', 'h', 'e', 'r', 'e'])]
        ⟨2, chars ['/', 'h', 'o', 'm', 'e', '/', 'y', 'u', 'n', 'h', 'a', 'o'] ++
          List.replicate 116 0⟩ = some w' ∧
      str w'.path = chars ['/', 'h', 'o', 'm', 'e'] ∧ w'.ino = 1 := by
  have hwalk : homeTree.walk homePath
      [some dotdot, some (chars ['n', 'o', 'w', 'h', 'e', 'r', 'e'])] =
        [chars ['h', 'o', 'm', 'e']] := by decide
  have hargs : ∀ c, some c ∈ [some dotdot, some (chars ['n', 'o', 'w', 'h', 'e', 'r', 'e'])] →
      IsArg c := by
    intro c hc
    rcases List.mem_cons.1 hc with heq | hc
    · exact Option.some.inj heq ▸ (by decide)
    · exact Option.some.inj (List.mem_singleton.1 hc) ▸ (by decide)
  obtain ⟨w', d, hrun, hstr, hres, hino, -⟩ := workdir_agrees homeTree
    (fun d => dirBlock (homeTree.entries d.toNat)) (fun d _ => rfl)
    ⟨2, chars ['/', 'h', 'o', 'm', 'e', '/', 'y', 'u', 'n', 'h', 'a', 'o'] ++ List.replicate 116 0⟩
    (by decide) ⟨by decide, List.replicate 115 0, by decide⟩ 2 (by decide) rfl
    [some dotdot, some (chars ['n', 'o', 'w', 'h', 'e', 'r', 'e'])] hargs fun k => by
      rcases k with _ | _ | k
      · decide
      · decide
      · rw [List.take_succ_cons, List.take_succ_cons, List.take_nil, hwalk]
        decide
  rw [hwalk] at hstr
  rw [hstr] at hres
  have hd : some d = some 1 := hres.symm.trans (by decide)
  refine ⟨w', hrun, hstr, ?_⟩
  rw [hino, Option.some.inj hd]
  rfl

end Egos
