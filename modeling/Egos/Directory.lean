/-
**Looking up a name in a directory** (`apps/system/sys_dir.c`).

A directory is a text of one block, in which names and decimal inode numbers alternate, separated by
spaces (`tools/mkfs.c`).  `dir_do_lookup` goes through the positions of the text and compares the
name with what stands there, between two spaces; it does not know whether that is a name or a
number, or a piece of several of them.  The last position is computed as the unsigned difference of
the lengths of the text and of the name, so that for a name longer than the text the loop does not
end there.

A read past the end of the block has no result in the model.

Main definitions:

* `Egos.dirDoLookup` — the lookup: the result, and the number of positions;
* `Egos.Stands` — a name stands at a position;
* `Egos.DirEntry`, `Egos.dirText`, `Egos.dirBlock` — directories;
* `Egos.inodeOf` — the inode number that a directory gives to a name.

Main results:

* `Egos.lookup_safe_iff` — **when the lookup stays in the block and ends**;
* `Egos.lookup_exact_iff` — **when the lookup is exact**;
* `Egos.lookup_word` — it is exact for a word that is no number.
-/

import Egos.Block
import Egos.CommandLine
import Egos.CString
import Mathlib.Data.List.Nodup

set_option autoImplicit false

namespace Egos

open CString

/-! ### The lookup -/

/-- The test of the loop of `dir_do_lookup` at the position `i`. -/
def hitAt (buf name : List UInt8) (i : ℕ) : Option Bool := do
  let same ← strncmp name (buf.drop i)
  if same then
    let c ← buf[i + name.length]?
    if c = space then
      if i = 0 then some true
      else
        let d ← buf[i - 1]?
        some (d = space)
    else some false
  else some false

/-- The loop of `dir_do_lookup` from the position `i` on, for `n` positions. -/
def lookupLoop (buf name : List UInt8) : ℕ → ℕ → Option (ℤ × ℕ)
  | 0, i => some (-1, i)
  | n + 1, i => do
      let hit ← hitAt buf name i
      if hit then
        let ino ← atoi (buf.drop (i + name.length))
        some (ino, i + 1)
      else lookupLoop buf name n (i + 1)

/-- `dir_do_lookup`, after the block of the directory has been read: the return value, and the
number of positions that the loop went through. -/
def dirDoLookup (buf : Block) (name : List UInt8) : Option (ℤ × ℕ) := do
  let len ← strlen buf.bytes
  lookupLoop buf.bytes name ((len + (2 ^ 32 - name.length)) % 2 ^ 32) 0

section Loop

variable {buf name : List UInt8}

/-- **A name stands at a position**: between two spaces, or at the start and before a space. -/
def Stands (buf name : List UInt8) (i : ℕ) : Prop :=
  name <+: buf.drop i ∧ buf[i + name.length]? = some space ∧ (i = 0 ∨ buf[i - 1]? = some space)

theorem Stands.lt {i : ℕ} (h : Stands buf name i) : i + name.length < buf.length :=
  (List.getElem?_eq_some_iff.1 h.2.1).1

theorem hitAt_eq_true_iff {i : ℕ} : hitAt buf name i = some true ↔ Stands buf name i := by
  rw [Stands, ← strncmp_eq_some_true_iff, hitAt]
  cases strncmp name (buf.drop i) with
  | none => simp
  | some same =>
      cases same with
      | false => simp
      | true =>
          cases hc : buf[i + name.length]? with
          | none => simp
          | some c =>
              by_cases hs : c = space
              · by_cases hi : i = 0
                · simp [hs, hi]
                · cases hd : buf[i - 1]? with
                  | none => simp [hs, hi]
                  | some d => simp [hs, hi]
              · simp [hs]

/-- The test has a result if the name fits between the position and the end of the block. -/
theorem hitAt_isSome {i : ℕ} (h : i + name.length < buf.length) :
    (hitAt buf name i).isSome = true := by
  have hcmp : (strncmp name (buf.drop i)).isSome = true :=
    strncmp_isSome (by rw [List.length_drop]; omega)
  rw [hitAt]
  cases hsame : strncmp name (buf.drop i) with
  | none => exact absurd (hsame ▸ hcmp) (by decide)
  | some same =>
      cases same with
      | false => rfl
      | true =>
          have hc := List.getElem?_eq_getElem h
          have hd := List.getElem?_eq_getElem (show i - 1 < buf.length by omega)
          simp only [Option.bind_eq_bind, Option.bind_some, hc, hd, if_true]
          split
          · split
            · rfl
            · rfl
          · rfl

theorem hitAt_eq_false {i : ℕ} (h : i + name.length < buf.length) (hno : ¬ Stands buf name i) :
    hitAt buf name i = some false := by
  have hsome := hitAt_isSome h
  cases hhit : hitAt buf name i with
  | none => exact absurd (hhit ▸ hsome) (by decide)
  | some hit =>
      cases hit with
      | false => rfl
      | true => exact absurd (hitAt_eq_true_iff.1 hhit) hno

/-- **The first hit ends the loop.** -/
theorem lookupLoop_hit {p : ℕ} (hp : Stands buf name p) :
    ∀ n i, i ≤ p → p < i + n → (∀ q, i ≤ q → q < p → ¬ Stands buf name q) →
      lookupLoop buf name n i =
        (atoi (buf.drop (p + name.length))).map fun ino => (ino, p + 1) := by
  intro n
  induction n with
  | zero =>
      intro i hle hlt
      omega
  | succ n ih =>
      intro i hle hlt hfirst
      rw [lookupLoop]
      by_cases hi : i = p
      · subst hi
        rw [hitAt_eq_true_iff.2 hp]
        cases hatoi : atoi (buf.drop (i + name.length)) with
        | none => simp
        | some ino => simp
      · have := hp.lt
        rw [hitAt_eq_false (by omega) (hfirst i le_rfl (by omega))]
        exact ih (i + 1) (by omega) (by omega) fun q hq => hfirst q (by omega)

/-- Without a hit the loop runs to its end, if it stays in the block. -/
theorem lookupLoop_miss :
    ∀ n i, (∀ q, i ≤ q → q < i + n → q + name.length < buf.length ∧ ¬ Stands buf name q) →
      lookupLoop buf name n i = some (-1, i + n) := by
  intro n
  induction n with
  | zero => exact fun i _ => rfl
  | succ n ih =>
      intro i hno
      obtain ⟨hlt, hmiss⟩ := hno i le_rfl (by omega)
      rw [lookupLoop, hitAt_eq_false hlt hmiss]
      have hrest := ih (i + 1) fun q hle hq => hno q (by omega) (by omega)
      rw [show i + (n + 1) = i + 1 + n by omega]
      exact hrest

/-- Without a hit, a loop that is not stopped leaves the block. -/
theorem lookupLoop_past (hname : name ≠ []) :
    ∀ n i, i ≤ buf.length → buf.length < i + n → (∀ q, i ≤ q → ¬ Stands buf name q) →
      lookupLoop buf name n i = none := by
  intro n
  induction n with
  | zero =>
      intro i hle hlt
      omega
  | succ n ih =>
      intro i hle hlt hno
      rw [lookupLoop]
      cases hhit : hitAt buf name i with
      | none => rfl
      | some hit =>
          cases hit with
          | true => exact absurd (hitAt_eq_true_iff.1 hhit) (hno i le_rfl)
          | false =>
              have hi : i ≠ buf.length := by
                -- past the end there is nothing to compare with
                rintro rfl
                cases name with
                | nil => exact hname rfl
                | cons c name =>
                    rw [hitAt, List.drop_length] at hhit
                    exact absurd hhit (by simp [strncmp])
              exact ih (i + 1) (by omega) (by omega) fun q hq => hno q (by omega)

/-- If a name stands anywhere, there is a first position. -/
theorem Stands.first {i : ℕ} (h : Stands buf name i) :
    ∃ p, p ≤ i ∧ Stands buf name p ∧ ∀ q, q < p → ¬ Stands buf name q := by
  classical
  have hex : ∃ p, Stands buf name p := ⟨i, h⟩
  exact ⟨Nat.find hex, Nat.find_min' hex h, Nat.find_spec hex, fun q hq => Nat.find_min hex hq⟩

/-- If the number after a name ends in the block, so does the one after an earlier position. -/
theorem Stands.atoi_isSome {i p : ℕ} (hi : Stands buf name i) (hle : p ≤ i)
    (h : (atoi (buf.drop (i + name.length))).isSome = true) :
    (atoi (buf.drop (p + name.length))).isSome = true := by
  have hcons : buf.drop (i + name.length) = space :: buf.drop (i + name.length + 1) := by
    rw [List.drop_eq_getElem_cons hi.lt]
    exact congrArg (· :: _) (Option.some.inj ((List.getElem?_eq_getElem hi.lt).symm.trans hi.2.1))
  have hsplit : buf.drop (p + name.length) =
      (buf.drop (p + name.length)).take (i - p) ++ buf.drop (i + name.length) := by
    conv_lhs => rw [← List.take_append_drop (i - p) (buf.drop (p + name.length))]
    rw [List.drop_drop, show p + name.length + (i - p) = i + name.length by omega]
  rw [hsplit, hcons]
  exact atoi_isSome_append (hcons ▸ h) _

end Loop

/-! ### Staying in the block -/

/-- **When the lookup stays in the block and ends.**  For a block that contains a null byte and a
name of at most 31 characters, the lookup goes through at most 512 positions and reads nothing past
the end of the block, if and only if the name is not longer than the text of the block, or stands,
after the text, somewhere in the block with a number that ends in the block. -/
theorem lookup_safe_iff (buf : Block) (hbuf : ∃ k, buf k = 0) (name : List UInt8)
    (hlen : name.length ≤ 31) :
    (∃ r n, dirDoLookup buf name = some (r, n) ∧ n ≤ 512) ↔
      (∃ len, strlen buf.bytes = some len ∧ name.length ≤ len) ∨
        ∃ i, Stands buf.bytes name i ∧
          (atoi (buf.bytes.drop (i + name.length))).isSome = true := by
  have hsize := buf.length_bytes
  obtain ⟨s, t, hst, hs⟩ := exists_of_mem (Block.mem_bytes.2 hbuf)
  have hstrlen : strlen buf.bytes = some s.length := by rw [hst, strlen_append hs]
  have hlt : s.length < 512 := by
    rw [← hsize, hst, List.length_append, List.length_cons]
    omega
  rw [dirDoLookup, hstrlen]
  simp only [Option.bind_eq_bind, Option.bind_some, Option.some.injEq, exists_eq_left']
  rcases Nat.lt_or_ge s.length name.length with hlong | hshort
  · -- the unsigned difference is huge
    have hbound : 512 < (s.length + (2 ^ 32 - name.length)) % 2 ^ 32 := by omega
    generalize (s.length + (2 ^ 32 - name.length)) % 2 ^ 32 = bound at hbound
    have hpos : ∀ {p}, Stands buf.bytes name p → p < 512 := fun hp => by
      have := hp.lt
      omega
    constructor
    · rintro ⟨r, n, hrun, -⟩
      refine Or.inr ?_
      by_contra hno
      by_cases hany : ∃ i, Stands buf.bytes name i
      · obtain ⟨i, hi⟩ := hany
        obtain ⟨p, -, hp, hfirst⟩ := hi.first
        have hnum : atoi (buf.bytes.drop (p + name.length)) = none := by
          by_contra hsome
          exact hno ⟨p, hp, Option.isSome_iff_ne_none.2 hsome⟩
        rw [lookupLoop_hit hp bound 0 (Nat.zero_le _) (by have := hpos hp; omega)
          fun q _ hq => hfirst q hq, hnum] at hrun
        exact absurd hrun (by simp)
      · have hname : name ≠ [] := by
          rintro rfl
          exact absurd hlong (by simp)
        rw [lookupLoop_past hname bound 0 (Nat.zero_le _) (by omega)
          fun q _ hq => hany ⟨q, hq⟩] at hrun
        exact absurd hrun (by simp)
    · rintro (hle | ⟨i, hi, hnum⟩)
      · omega
      · obtain ⟨p, hle, hp, hfirst⟩ := hi.first
        obtain ⟨ino, hino⟩ := Option.isSome_iff_exists.1 (hi.atoi_isSome hle hnum)
        refine ⟨ino, p + 1, ?_, by have := hpos hp; omega⟩
        rw [lookupLoop_hit hp bound 0 (Nat.zero_le _) (by have := hpos hp; omega)
          fun q _ hq => hfirst q hq, hino, Option.map_some]
  · -- the loop ends before the end of the text
    have hbound : (s.length + (2 ^ 32 - name.length)) % 2 ^ 32 = s.length - name.length := by omega
    rw [hbound]
    refine ⟨fun _ => Or.inl hshort, fun _ => ?_⟩
    by_cases hany : ∃ i, i < s.length - name.length ∧ Stands buf.bytes name i
    · obtain ⟨i, hlti, hi⟩ := hany
      obtain ⟨p, hle, hp, hfirst⟩ := hi.first
      have hmem : (0 : UInt8) ∈ buf.bytes.drop (p + name.length) := by
        rw [hst, List.drop_append_of_le_length (by omega)]
        exact List.mem_append_right _ List.mem_cons_self
      obtain ⟨ino, hino⟩ := Option.isSome_iff_exists.1 (atoi_isSome_of_mem hmem)
      refine ⟨ino, p + 1, ?_, by omega⟩
      rw [lookupLoop_hit hp _ 0 (Nat.zero_le _) (by omega) fun q _ hq => hfirst q hq, hino,
        Option.map_some]
    · refine ⟨-1, s.length - name.length, ?_, by omega⟩
      rw [lookupLoop_miss _ 0 fun q _ hq => ⟨by omega, fun hst' => hany ⟨q, by omega, hst'⟩⟩,
        Nat.zero_add]

set_option maxRecDepth 4000 in
/-- The name `a` in a directory that starts with it. -/
theorem lookup_safe_iff_short : ∃ r n, n ≤ 512 ∧
    dirDoLookup (fun k => if k = 0 then 97 else if k.val < 4 then 32 else 0) [97] =
      some (r, n) := by
  obtain ⟨r, n, hrun, hn⟩ := (lookup_safe_iff
    (fun k => if k = 0 then 97 else if k.val < 4 then 32 else 0) ⟨4, rfl⟩ [97] (by decide)).2
    (Or.inl ⟨4, rfl, by decide⟩)
  exact ⟨r, n, hn, hrun⟩

/-- **A name that is longer than the text makes the lookup leave the block**: in an empty directory
the name `a` is searched past the end. -/
theorem lookup_leaves_block : dirDoLookup nullBlock [97] = none := by
  have hno : ∀ q, 0 ≤ q → ¬ Stands nullBlock.bytes [97] q := by
    rintro q - ⟨-, hspace, -⟩
    obtain ⟨k, hk⟩ := Block.mem_bytes.1 (List.mem_of_getElem? hspace)
    have h0 : (0 : UInt8) = space := hk
    exact absurd h0 (by decide)
  obtain ⟨s, t, hst, hs⟩ := exists_of_mem (Block.mem_bytes.2 ⟨0, rfl⟩ : 0 ∈ nullBlock.bytes)
  have hnil : s = [] := by
    refine List.eq_nil_iff_forall_not_mem.2 fun c hc => ?_
    obtain ⟨k, hk⟩ := Block.mem_bytes.1 (hst ▸ List.mem_append_left _ hc)
    exact hs ((show (0 : UInt8) = c from hk) ▸ hc)
  have hstrlen : strlen nullBlock.bytes = some 0 := by
    rw [hst, strlen_append hs, hnil, List.length_nil]
  have hbound : 512 < (0 + (2 ^ 32 - [(97 : UInt8)].length)) % 2 ^ 32 := by
    rw [List.length_singleton]
    omega
  rw [dirDoLookup, hstrlen, Option.bind_eq_bind, Option.bind_some]
  generalize (0 + (2 ^ 32 - [(97 : UInt8)].length)) % 2 ^ 32 = n at hbound
  refine lookupLoop_past (List.cons_ne_nil _ _) n 0 (Nat.zero_le _) ?_ hno
  rw [Block.length_bytes, Nat.zero_add]
  exact hbound

/-! ### Directories -/

/-- An entry of a directory: a name, some spaces, and an inode number. -/
structure DirEntry where
  name : List UInt8
  gap : ℕ
  ino : ℕ
  name_ne : name ≠ []
  name_space : space ∉ name
  name_nul : 0 ∉ name
  gap_pos : 0 < gap
  ino_lt : ino < 2 ^ 31

/-- The text of an entry, in the format of `mkfs`. -/
def DirEntry.text (e : DirEntry) : List UInt8 :=
  e.name ++ (List.replicate e.gap space ++ (decimal e.ino ++ [space]))

/-- The text of a directory. -/
def dirText (es : List DirEntry) : List UInt8 := es.flatMap DirEntry.text

/-- The block of a directory, which is filled up with null bytes. -/
def dirBlock (es : List DirEntry) : Block := fun k => (dirText es).getD k 0

/-- The inode number of a name in a directory, and `-1` if it is not there. -/
def inodeOf (es : List DirEntry) (name : List UInt8) : ℤ :=
  match es.find? fun e => e.name = name with
  | some e => e.ino
  | none => -1

@[simp] theorem dirText_nil : dirText [] = [] := rfl

theorem dirText_cons (e : DirEntry) (es : List DirEntry) :
    dirText (e :: es) = e.text ++ dirText es := rfl

theorem dirText_append (es es' : List DirEntry) :
    dirText (es ++ es') = dirText es ++ dirText es' := List.flatMap_append

/-- The block of a directory is its text and null bytes. -/
theorem dirBlock_bytes {es : List DirEntry} (hlen : (dirText es).length ≤ 512) :
    (dirBlock es).bytes = dirText es ++ List.replicate (512 - (dirText es).length) 0 :=
  ofFn_getD (dirText es) 0 hlen

theorem decimal_chars {n : ℕ} {c : UInt8} (hc : c ∈ decimal n) : c ≠ space ∧ c ≠ 0 := by
  have hdigit := isdigit_of_mem_decimal hc
  constructor
  · rintro rfl
    exact absurd hdigit (by decide)
  · rintro rfl
    exact absurd hdigit (by decide)

theorem DirEntry.zero_notMem (e : DirEntry) : 0 ∉ e.text := by
  intro h
  rw [DirEntry.text, List.mem_append, List.mem_append, List.mem_append] at h
  rcases h with h | h | h | h
  · exact e.name_nul h
  · exact absurd (List.eq_of_mem_replicate h) (by decide)
  · exact (decimal_chars h).2 rfl
  · exact absurd (List.mem_singleton.1 h) (by decide)

theorem zero_notMem_dirText (es : List DirEntry) : 0 ∉ dirText es := by
  intro h
  obtain ⟨e, -, he⟩ := List.mem_flatMap.1 h
  exact e.zero_notMem he

/-- A directory ends with a space. -/
theorem getLast?_dirText (es : List DirEntry) (hne : es ≠ []) :
    (dirText es).getLast? = some space := by
  obtain ⟨es', e, rfl⟩ := List.eq_nil_or_concat es |>.resolve_left hne
  rw [List.concat_eq_append, dirText_append, dirText_cons, dirText_nil, List.append_nil,
    DirEntry.text, ← List.append_assoc, ← List.append_assoc, ← List.append_assoc,
    List.getLast?_concat]

/-! ### Places of a name -/

/-- The entry with the name starts at a position. -/
def StartsAt (es : List DirEntry) (name : List UInt8) (p : ℕ) : Prop :=
  ∃ pre e post, es = pre ++ e :: post ∧ e.name = name ∧ p = (dirText pre).length

section Exact

variable {es : List DirEntry} {name : List UInt8}

/-- A name stands where its entry starts, and the inode number comes after it. -/
theorem StartsAt.stands {p : ℕ} (h : StartsAt es name p) (tail : List UInt8) :
    Stands (dirText es ++ tail) name p ∧ ∃ e ∈ es, e.name = name ∧
      atoi ((dirText es ++ tail).drop (p + name.length)) = some (e.ino : ℤ) := by
  obtain ⟨pre, e, post, rfl, rfl, rfl⟩ := h
  obtain ⟨gap, hgap⟩ : ∃ gap, e.gap = gap + 1 := ⟨e.gap - 1, by have := e.gap_pos; omega⟩
  -- the text from the entry on
  have htext : dirText (pre ++ e :: post) ++ tail = dirText pre ++ (e.name ++
      (List.replicate e.gap space ++ (decimal e.ino ++ space :: (dirText post ++ tail)))) := by
    rw [dirText_append, dirText_cons, DirEntry.text]
    simp only [List.append_assoc, List.cons_append, List.nil_append]
  rw [htext]
  refine ⟨⟨?_, ?_, ?_⟩, e, List.mem_append_right _ List.mem_cons_self, rfl, ?_⟩
  · rw [List.drop_left]
    exact List.prefix_append _ _
  · rw [List.getElem?_append_right (by omega), Nat.add_sub_cancel_left,
      List.getElem?_append_right le_rfl, Nat.sub_self, hgap, List.replicate_succ]
    rfl
  · by_cases hpre : pre = []
    · rw [hpre]
      exact Or.inl rfl
    · have hlast := getLast?_dirText pre hpre
      have hpos : 0 < (dirText pre).length := by
        rw [List.length_pos_iff]
        intro hnil
        rw [hnil] at hlast
        exact absurd hlast (by simp)
      rw [List.getLast?_eq_getElem?] at hlast
      rw [List.getElem?_append_left (by omega)]
      exact Or.inr hlast
  · rw [← List.append_assoc, ← List.length_append, List.drop_left]
    exact atoi_decimal e.ino_lt (by decide) _ _

/-- The inode number of an entry, if the names are distinct. -/
theorem inodeOf_of_mem (hnd : (es.map DirEntry.name).Nodup) {e : DirEntry} (he : e ∈ es) :
    inodeOf es e.name = e.ino := by
  rw [inodeOf]
  cases hfind : es.find? fun e' => e'.name = e.name with
  | none =>
      have hne := List.find?_eq_none.1 hfind e he
      exact absurd (decide_eq_true rfl) hne
  | some e' =>
      have hname : e'.name = e.name := by simpa using List.find?_some hfind
      have hmem := List.mem_of_find?_eq_some hfind
      exact congrArg (fun e : DirEntry => (e.ino : ℤ)) (List.inj_on_of_nodup_map hnd hmem he hname)

/-- A name that does not start anywhere has no inode number. -/
theorem inodeOf_of_not_starts (h : ∀ p, ¬ StartsAt es name p) : inodeOf es name = -1 := by
  rw [inodeOf]
  cases hfind : es.find? fun e => e.name = name with
  | none => rfl
  | some e =>
      obtain ⟨pre, post, rfl⟩ := List.append_of_mem (List.mem_of_find?_eq_some hfind)
      exact absurd ⟨pre, e, post, rfl, by simpa using List.find?_some hfind, rfl⟩ (h _)

/-- A name is found in a wrong place: it first stands at a position that is not that of its entry,
but that of an inode number, in the padding, or across several words. -/
def Shadows (es : List DirEntry) (name : List UInt8) (p : ℕ) : Prop :=
  Stands (dirBlock es).bytes name p ∧ (∀ q, q < p → ¬ Stands (dirBlock es).bytes name q) ∧
    ¬ StartsAt es name p

/-- The number of positions of a lookup that compares names only: it ends at the entry with the
name, or it goes through all positions. -/
def EndsAfter (es : List DirEntry) (name : List UInt8) (n : ℕ) : Prop :=
  (∃ p, StartsAt es name p ∧ n = p + 1) ∨
    (∀ p, ¬ StartsAt es name p) ∧ n = (dirText es).length - name.length

/-- A name that stands in the block stands in the text. -/
theorem Stands.lt_dirText (hlen : (dirText es).length < 512) {p : ℕ}
    (hp : Stands (dirBlock es).bytes name p) : p < (dirText es).length - name.length := by
  by_contra hge
  have hspace := hp.2.1
  rw [dirBlock_bytes (by omega), List.getElem?_append_right (by omega)] at hspace
  have h0 := List.eq_of_mem_replicate (List.mem_of_getElem? hspace)
  exact absurd h0 (by decide)

/-- The lookup goes through the positions of the text, up to the length of the name. -/
theorem dirDoLookup_dirBlock (hlen : (dirText es).length < 512)
    (hshort : name.length ≤ (dirText es).length) :
    dirDoLookup (dirBlock es) name =
      lookupLoop (dirBlock es).bytes name ((dirText es).length - name.length) 0 := by
  have hstrlen : strlen (dirBlock es).bytes = some (dirText es).length := by
    rw [dirBlock_bytes (by omega),
      show 512 - (dirText es).length = 512 - (dirText es).length - 1 + 1 by omega,
      List.replicate_succ, strlen_append (zero_notMem_dirText es)]
  have hbound : ((dirText es).length + (2 ^ 32 - name.length)) % 2 ^ 32 =
      (dirText es).length - name.length := by omega
  rw [dirDoLookup, hstrlen]
  simp only [Option.bind_eq_bind, Option.bind_some, hbound]

/-- The lookup reads the number after the first position at which the name stands. -/
theorem lookup_first (hlen : (dirText es).length < 512)
    (hshort : name.length ≤ (dirText es).length) {p : ℕ}
    (hp : Stands (dirBlock es).bytes name p)
    (hfirst : ∀ q, q < p → ¬ Stands (dirBlock es).bytes name q) :
    dirDoLookup (dirBlock es) name =
      (atoi ((dirBlock es).bytes.drop (p + name.length))).map fun ino => (ino, p + 1) := by
  rw [dirDoLookup_dirBlock hlen hshort]
  have hlt := hp.lt_dirText hlen
  exact lookupLoop_hit hp _ 0 (Nat.zero_le _) (by omega) fun q _ hq => hfirst q hq

/-- A name that is not found in a wrong place is looked up exactly. -/
theorem lookup_of_not_shadows (hnd : (es.map DirEntry.name).Nodup)
    (hlen : (dirText es).length < 512) (hshort : name.length ≤ (dirText es).length)
    (hno : ∀ p, ¬ Shadows es name p) :
    ∃ n, dirDoLookup (dirBlock es) name = some (inodeOf es name, n) ∧ EndsAfter es name n := by
  have hstarts : ∀ p, StartsAt es name p → Stands (dirBlock es).bytes name p ∧ ∃ e ∈ es,
      e.name = name ∧ atoi ((dirBlock es).bytes.drop (p + name.length)) = some (e.ino : ℤ) := by
    intro p h
    rw [dirBlock_bytes (by omega)]
    exact h.stands _
  by_cases hany : ∃ p, Stands (dirBlock es).bytes name p
  · obtain ⟨i, hi⟩ := hany
    obtain ⟨p, -, hp, hfirst⟩ := hi.first
    have hstart : StartsAt es name p := by
      by_contra hnot
      exact hno p ⟨hp, hfirst, hnot⟩
    obtain ⟨-, e, he, rfl, hatoi⟩ := hstarts p hstart
    refine ⟨p + 1, ?_, Or.inl ⟨p, hstart, rfl⟩⟩
    rw [lookup_first hlen hshort hp hfirst, hatoi, inodeOf_of_mem hnd he, Option.map_some]
  · have hnot : ∀ p, ¬ StartsAt es name p := fun p h => hany ⟨p, (hstarts p h).1⟩
    refine ⟨(dirText es).length - name.length, ?_, Or.inr ⟨hnot, rfl⟩⟩
    rw [dirDoLookup_dirBlock hlen hshort, lookupLoop_miss _ 0, Nat.zero_add,
      inodeOf_of_not_starts hnot]
    intro q _ hq
    refine ⟨?_, fun hst => hany ⟨q, hst⟩⟩
    rw [Block.length_bytes]
    omega

/-- A lookup that finds the name in a wrong place does not end as it should. -/
theorem Shadows.not_endsAfter {p n : ℕ} (h : Shadows es name p)
    (hlen : (dirText es).length < 512) (hshort : name.length ≤ (dirText es).length)
    (hrun : dirDoLookup (dirBlock es) name = some (inodeOf es name, n)) :
    ¬ EndsAfter es name n := by
  obtain ⟨hp, hfirst, hnot⟩ := h
  rw [lookup_first hlen hshort hp hfirst] at hrun
  obtain ⟨ino, hino, hpair⟩ := Option.map_eq_some_iff.1 hrun
  obtain ⟨rfl, rfl⟩ := Prod.mk.inj hpair
  rintro (⟨q, hq, hpq⟩ | ⟨hno, hend⟩)
  · obtain rfl : p = q := by omega
    exact hnot hq
  · -- the name is at the end of the text, and no number comes after it
    have hlt := hp.lt_dirText hlen
    obtain ⟨k, hk⟩ : ∃ k, 512 - (dirText es).length = k + 1 :=
      ⟨511 - (dirText es).length, by omega⟩
    obtain ⟨hlt', hget⟩ := List.getElem?_eq_some_iff.1 hp.2.1
    rw [List.drop_eq_getElem_cons hlt', hget, dirBlock_bytes (by omega),
      show p + name.length + 1 = (dirText es).length by omega, List.drop_left, hk,
      List.replicate_succ, inodeOf_of_not_starts hno] at hino
    have h0 : atoi (space :: 0 :: List.replicate k 0) = some 0 := rfl
    rw [h0] at hino
    exact absurd (Option.some.inj hino) (by decide)

end Exact

/-! ### Words -/

section Word

variable {name : List UInt8}

/-- Where a word stands in a text whose first word is `w`. -/
theorem Stands.of_word_append (hsp : space ∉ name) {w rest : List UInt8} (hw : space ∉ w) {p : ℕ}
    (h : Stands (w ++ space :: rest) name p) :
    p = 0 ∧ name = w ∨ ∃ p', p = w.length + (p' + 1) ∧ Stands rest name p' := by
  obtain ⟨hpre, hend, hstart⟩ := h
  rcases Nat.lt_trichotomy p 0 with hlt | rfl | hpos
  · omega
  · -- both words end at the first space
    refine Or.inl ⟨rfl, ?_⟩
    rw [List.drop_zero] at hpre
    rw [Nat.zero_add] at hend
    rcases Nat.lt_trichotomy name.length w.length with hlt | heq | hgt
    · rw [List.getElem?_append_left hlt] at hend
      exact absurd (List.mem_of_getElem? hend) hw
    · obtain ⟨t, ht⟩ := hpre
      exact (List.append_inj ht heq).1
    · have hget := hpre.getElem hgt
      rw [List.getElem_append_right le_rfl] at hget
      simp only [Nat.sub_self, List.getElem_cons_zero] at hget
      exact absurd (hget ▸ List.getElem_mem hgt) hsp
  · have hprev := hstart.resolve_left (by omega)
    rcases Nat.lt_or_ge (p - 1) w.length with hlt | hge
    · rw [List.getElem?_append_left hlt] at hprev
      exact absurd (List.mem_of_getElem? hprev) hw
    · obtain ⟨p', rfl⟩ : ∃ p', p = w.length + (p' + 1) := ⟨p - 1 - w.length, by omega⟩
      refine Or.inr ⟨p', rfl, ?_, ?_, ?_⟩
      · rw [← List.drop_drop, List.drop_left, List.drop_succ_cons] at hpre
        exact hpre
      · rw [List.getElem?_append_right (by omega),
          show w.length + (p' + 1) + name.length - w.length = p' + name.length + 1 by omega,
          List.getElem?_cons_succ] at hend
        exact hend
      · rcases Nat.eq_zero_or_pos p' with hp | hp
        · exact Or.inl hp
        · rw [List.getElem?_append_right (by omega),
            show w.length + (p' + 1) - 1 - w.length = p' - 1 + 1 by omega,
            List.getElem?_cons_succ] at hprev
          exact Or.inr hprev

/-- A word does not stand in padding. -/
theorem Stands.of_replicate_append (hne : name ≠ []) (hsp : space ∉ name) {rest : List UInt8} :
    ∀ gap p, Stands (List.replicate gap space ++ rest) name p →
      ∃ p', p = gap + p' ∧ Stands rest name p' := by
  intro gap
  induction gap with
  | zero => exact fun p h => ⟨p, (Nat.zero_add p).symm, h⟩
  | succ gap ih =>
      intro p h
      rw [List.replicate_succ, List.cons_append] at h
      rcases Stands.of_word_append hsp List.not_mem_nil h with ⟨-, hnil⟩ | ⟨p', rfl, h'⟩
      · exact absurd hnil hne
      · obtain ⟨p'', rfl, h''⟩ := ih p' h'
        exact ⟨p'', by rw [List.length_nil]; omega, h''⟩

/-- In the text of an entry a word stands as the name or as the inode number. -/
theorem Stands.of_entry (hne : name ≠ []) (hsp : space ∉ name) (e : DirEntry) {rest : List UInt8}
    {p : ℕ} (h : Stands (e.text ++ rest) name p) :
    p = 0 ∧ name = e.name ∨ name = decimal e.ino ∨
      ∃ p', p = e.text.length + p' ∧ Stands rest name p' := by
  obtain ⟨gap, hgap⟩ : ∃ gap, e.gap = gap + 1 := ⟨e.gap - 1, by have := e.gap_pos; omega⟩
  have htext : e.text ++ rest = e.name ++ space :: (List.replicate gap space ++
      (decimal e.ino ++ space :: rest)) := by
    rw [DirEntry.text, hgap, List.replicate_succ]
    simp only [List.append_assoc, List.cons_append, List.nil_append]
  have hlength : e.text.length = e.name.length + (gap + ((decimal e.ino).length + 1) + 1) := by
    rw [DirEntry.text, hgap]
    simp only [List.length_append, List.length_replicate, List.length_cons, List.length_nil]
    omega
  rw [htext] at h
  rcases Stands.of_word_append hsp e.name_space h with h0 | ⟨p₁, rfl, h₁⟩
  · exact Or.inl h0
  · obtain ⟨p₂, rfl, h₂⟩ := Stands.of_replicate_append hne hsp gap p₁ h₁
    rcases Stands.of_word_append hsp (fun hc => (decimal_chars hc).1 rfl) h₂ with
      ⟨-, hino⟩ | ⟨p₃, rfl, h₃⟩
    · exact Or.inr (Or.inl hino)
    · exact Or.inr (Or.inr ⟨p₃, by omega, h₃⟩)

/-- **In the text of a directory a word stands as a name or as an inode number.** -/
theorem Stands.of_dirText (hne : name ≠ []) (hsp : space ∉ name) (k : ℕ) (es : List DirEntry) :
    ∀ p, Stands (dirText es ++ List.replicate k 0) name p →
      StartsAt es name p ∨ ∃ e ∈ es, name = decimal e.ino := by
  induction es with
  | nil =>
      intro p h
      have h0 := List.eq_of_mem_replicate (List.mem_of_getElem? h.2.1)
      exact absurd h0 (by decide)
  | cons e es ih =>
      intro p h
      rw [dirText_cons, List.append_assoc] at h
      rcases Stands.of_entry hne hsp e h with ⟨rfl, rfl⟩ | hino | ⟨p', rfl, h'⟩
      · exact Or.inl ⟨[], e, es, rfl, rfl, rfl⟩
      · exact Or.inr ⟨e, List.mem_cons_self, hino⟩
      · rcases ih p' h' with ⟨pre, e', post, rfl, hname, rfl⟩ | ⟨e', he', hino⟩
        · refine Or.inl ⟨e :: pre, e', post, rfl, hname, ?_⟩
          rw [dirText_cons, List.length_append]
        · exact Or.inr ⟨e', List.mem_cons_of_mem _ he', hino⟩

/-- **A word that is no inode number of the directory is looked up exactly.** -/
theorem lookup_word {es : List DirEntry} (hnd : (es.map DirEntry.name).Nodup)
    (hlen : (dirText es).length < 512) (hshort : name.length ≤ (dirText es).length)
    (hne : name ≠ []) (hsp : space ∉ name) (hnum : ∀ e ∈ es, name ≠ decimal e.ino) :
    ∃ n, dirDoLookup (dirBlock es) name = some (inodeOf es name, n) := by
  have hno : ∀ p, ¬ Shadows es name p := by
    rintro p ⟨hp, -, hnot⟩
    rw [dirBlock_bytes (by omega)] at hp
    rcases Stands.of_dirText hne hsp _ es p hp with hstart | ⟨e, he, hino⟩
    · exact hnot hstart
    · exact hnum e he hino
  obtain ⟨n, hrun, -⟩ := lookup_of_not_shadows hnd hlen hshort hno
  exact ⟨n, hrun⟩

end Word

/-! ### Exactness -/

/-- **When the lookup is exact.**  In a directory with distinct names, whose text is shorter than
the block, a name that is not longer than the text is looked up exactly, and the lookup ends at the
entry with that name, or after all positions if there is none, if and only if it is not found in a
wrong place. -/
theorem lookup_exact_iff (es : List DirEntry) (hnd : (es.map DirEntry.name).Nodup)
    (hlen : (dirText es).length < 512) (name : List UInt8)
    (hshort : name.length ≤ (dirText es).length) :
    (∃ n, dirDoLookup (dirBlock es) name = some (inodeOf es name, n) ∧ EndsAfter es name n) ↔
      ∀ p, ¬ Shadows es name p := by
  constructor
  · rintro ⟨n, hrun, hend⟩ p hp
    exact hp.not_endsAfter hlen hshort hrun hend
  · exact lookup_of_not_shadows hnd hlen hshort

/-- The directory `/home/rvr` of the image. -/
def rvrDir : List DirEntry :=
  [{ name := [46, 47], gap := 3, ino := 3, name_ne := by decide, name_space := by decide,
     name_nul := by decide, gap_pos := by decide, ino_lt := by omega },
   { name := [46, 46, 47], gap := 3, ino := 1, name_ne := by decide, name_space := by decide,
     name_nul := by decide, gap_pos := by decide, ino_lt := by omega }]

set_option maxRecDepth 4000 in
/-- The parent of `/home/rvr` is `/home`. -/
theorem lookup_exact_iff_rvr :
    ∃ n, dirDoLookup (dirBlock rvrDir) [46, 46, 47] = some (1, n) ∧
      EndsAfter rvrDir [46, 46, 47] n := by
  have hlen : (dirText rvrDir).length = 15 := by decide
  refine (lookup_exact_iff rvrDir (by decide) (by omega) [46, 46, 47] (by rw [hlen]; decide)).2 ?_
  rintro p ⟨hp, -, hnot⟩
  rw [dirBlock_bytes (by omega)] at hp
  rcases Stands.of_dirText (by decide) (by decide) _ rvrDir p hp with hstart | ⟨e, he, hino⟩
  · exact absurd hstart hnot
  · exact absurd hino (by revert e; decide)

set_option maxRecDepth 4000 in
/-- **An inode number is found as if it were a name**: in `/home/rvr` the name `3`, which is not
there, is looked up as the inode 0, that of the root directory. -/
theorem number_found_as_name :
    (rvrDir.map DirEntry.name).Nodup ∧ (dirText rvrDir).length = 15 ∧
      inodeOf rvrDir [51] = -1 ∧ dirDoLookup (dirBlock rvrDir) [51] = some (0, 6) := by
  decide +kernel

end Egos
