/-
**A write-back cache.**

A cache has lines that hold the values of some keys; the values of the other keys are in the store
behind it.  Where the value of a key is depends on what was evicted when, but the value itself does
not: this module says what each operation of a cache does to the values, so that a program that uses
one can be understood as if it had an array.

Main definitions:

* `WriteBack.Cache` — the lines, their tags and the store;
* `WriteBack.Cache.Holds` — the value of a key;
* `WriteBack.Cache.flush`, `WriteBack.Cache.install`, `WriteBack.Cache.setLine`,
  `WriteBack.Cache.drop` — the operations.

Main results:

* `WriteBack.Cache.Holds.unique`, `WriteBack.Cache.exists_holds` — every key has one value;
* `WriteBack.Cache.Holds.evict` — **putting a key in a line that was written back keeps the values
  of the other keys**.
-/

import Mathlib.Logic.Function.Basic

set_option autoImplicit false

namespace WriteBack

open Function (update update_of_ne update_self)

/-- A cache with lines `ι` for values of type `V` under keys `κ`. -/
@[ext] structure Cache (ι κ V : Type) where
  tag : ι → Option κ
  line : ι → V
  /-- The store behind the cache. -/
  back : κ → V

namespace Cache

variable {ι κ V : Type} {c : Cache ι κ V} {i : ι} {k k' : κ} {v v' : V}

/-- **The value of a key**: that of its line, or else that of the store. -/
def Holds (c : Cache ι κ V) (k : κ) (v : V) : Prop :=
  (∃ i, c.tag i = some k ∧ c.line i = v) ∨ (∀ i, c.tag i ≠ some k) ∧ c.back k = v

/-- No key is in two lines. -/
def Valid (c : Cache ι κ V) : Prop :=
  ∀ i j k, c.tag i = some k → c.tag j = some k → i = j

theorem holds_line (hi : c.tag i = some k) : c.Holds k (c.line i) := Or.inl ⟨i, hi, rfl⟩

theorem Holds.of_line (h : c.Holds k v) (hc : c.Valid) (hi : c.tag i = some k) : c.line i = v := by
  rcases h with ⟨j, hj, hv⟩ | ⟨hnone, -⟩
  · rw [hc i j k hi hj]
    exact hv
  · exact absurd hi (hnone i)

theorem Holds.of_back (h : c.Holds k v) (hnone : ∀ i, c.tag i ≠ some k) : c.back k = v := by
  rcases h with ⟨j, hj, -⟩ | ⟨-, hv⟩
  · exact absurd hj (hnone j)
  · exact hv

theorem Holds.unique (hc : c.Valid) (h : c.Holds k v) (h' : c.Holds k v') : v = v' := by
  rcases h with ⟨i, hi, hv⟩ | ⟨hnone, hv⟩
  · exact hv.symm.trans (h'.of_line hc hi)
  · exact hv.symm.trans (h'.of_back hnone)

theorem exists_holds (c : Cache ι κ V) (k : κ) : ∃ v, c.Holds k v := by
  by_cases h : ∃ i, c.tag i = some k
  · obtain ⟨i, hi⟩ := h
    exact ⟨c.line i, holds_line hi⟩
  · exact ⟨c.back k, Or.inr ⟨fun i hi => h ⟨i, hi⟩, rfl⟩⟩

/-! ### Writing a line back, and forgetting a key -/

section Keys

variable [DecidableEq κ]

/-- Write a line back to the store. -/
def flush (c : Cache ι κ V) (i : ι) : Cache ι κ V :=
  match c.tag i with
  | some k => { c with back := update c.back k (c.line i) }
  | none => c

/-- Forget a key, without writing its line back. -/
def drop (c : Cache ι κ V) (k : κ) : Cache ι κ V :=
  { c with tag := fun i => if c.tag i = some k then none else c.tag i }

@[simp] theorem flush_tag (c : Cache ι κ V) (i : ι) : (c.flush i).tag = c.tag := by
  unfold flush
  split <;> rfl

@[simp] theorem flush_line (c : Cache ι κ V) (i : ι) : (c.flush i).line = c.line := by
  unfold flush
  split <;> rfl

theorem flush_of_none (hi : c.tag i = none) : c.flush i = c := by
  simp only [flush, hi]

/-- After a line was written back, the store has its value. -/
theorem flush_back_self (hi : c.tag i = some k) : (c.flush i).back k = c.line i := by
  simp [flush, hi]

theorem flush_back_of_ne (hi : c.tag i ≠ some k) : (c.flush i).back k = c.back k := by
  unfold flush
  split
  · rename_i k' hk'
    refine update_of_ne ?_ _ _
    rintro rfl
    exact hi hk'
  · rfl

/-- A line of the cache after a key was forgotten. -/
theorem drop_tag_eq_some : (c.drop k').tag i = some k ↔ c.tag i = some k ∧ k ≠ k' := by
  simp only [drop]
  constructor
  · intro h
    split at h
    · exact absurd h (by simp)
    · rename_i hi
      refine ⟨h, ?_⟩
      rintro rfl
      exact hi h
  · rintro ⟨hi, hne⟩
    rw [if_neg]
    · exact hi
    · rw [hi]
      intro he
      exact hne (Option.some.inj he)

theorem Valid.drop (hc : c.Valid) (k : κ) : (c.drop k).Valid := by
  intro i j k' hi hj
  exact hc i j k' (drop_tag_eq_some.1 hi).1 (drop_tag_eq_some.1 hj).1

/-- The other keys keep their values. -/
theorem Holds.drop (h : c.Holds k v) (hk : k ≠ k') : (c.drop k').Holds k v := by
  rcases h with ⟨i, hi, hv⟩ | ⟨hnone, hv⟩
  · exact Or.inl ⟨i, drop_tag_eq_some.2 ⟨hi, hk⟩, hv⟩
  · refine Or.inr ⟨?_, hv⟩
    intro i hi
    exact hnone i (drop_tag_eq_some.1 hi).1

end Keys

/-! ### Using a line for a key -/

section Lines

variable [DecidableEq ι]

/-- Use a line for a key. -/
def install (c : Cache ι κ V) (i : ι) (k : κ) (v : V) : Cache ι κ V :=
  { c with tag := update c.tag i (some k), line := update c.line i v }

/-- Change the value in a line. -/
def setLine (c : Cache ι κ V) (i : ι) (v : V) : Cache ι κ V :=
  { c with line := update c.line i v }

@[simp] theorem install_tag_self (c : Cache ι κ V) (i : ι) (k : κ) (v : V) :
    (c.install i k v).tag i = some k := update_self _ _ _

theorem install_tag_of_ne (c : Cache ι κ V) {i j : ι} (hj : j ≠ i) (k : κ) (v : V) :
    (c.install i k v).tag j = c.tag j := update_of_ne hj _ _

@[simp] theorem install_line_self (c : Cache ι κ V) (i : ι) (k : κ) (v : V) :
    (c.install i k v).line i = v := update_self _ _ _

theorem install_line_of_ne (c : Cache ι κ V) {i j : ι} (hj : j ≠ i) (k : κ) (v : V) :
    (c.install i k v).line j = c.line j := update_of_ne hj _ _

theorem install_holds (c : Cache ι κ V) (i : ι) (k : κ) (v : V) : (c.install i k v).Holds k v :=
  Or.inl ⟨i, install_tag_self c i k v, install_line_self c i k v⟩

/-- A key that is in no line is put in one. -/
theorem Valid.install (hc : c.Valid) (hnone : ∀ i, c.tag i ≠ some k) (i : ι) (v : V) :
    (c.install i k v).Valid := by
  intro a b k' ha hb
  by_cases hai : a = i
  · by_cases hbi : b = i
    · rw [hai, hbi]
    · rw [hai, install_tag_self, Option.some.injEq] at ha
      rw [install_tag_of_ne c hbi, ← ha] at hb
      exact absurd hb (hnone b)
  · rw [install_tag_of_ne c hai] at ha
    by_cases hbi : b = i
    · rw [hbi, install_tag_self, Option.some.injEq] at hb
      rw [← hb] at ha
      exact absurd ha (hnone a)
    · rw [install_tag_of_ne c hbi] at hb
      exact hc a b k' ha hb

theorem setLine_holds (hi : c.tag i = some k) (v : V) : (c.setLine i v).Holds k v :=
  Or.inl ⟨i, hi, update_self _ _ _⟩

/-- The other keys keep their values. -/
theorem Holds.setLine (h : c.Holds k v) (hi : c.tag i ≠ some k) (v' : V) :
    (c.setLine i v').Holds k v := by
  rcases h with ⟨j, hj, hv⟩ | ⟨hnone, hv⟩
  · have hji : j ≠ i := by
      rintro rfl
      exact hi hj
    exact Or.inl ⟨j, hj, (update_of_ne hji _ _).trans hv⟩
  · exact Or.inr ⟨hnone, hv⟩

end Lines

/-! ### Eviction -/

section Eviction

variable [DecidableEq ι] [DecidableEq κ]

theorem Valid.evict (hc : c.Valid) (hnone : ∀ i, c.tag i ≠ some k) (i : ι) (v : V) :
    ((c.flush i).install i k v).Valid := by
  have hflush : (c.flush i).Valid := by
    intro a b k' ha hb
    rw [flush_tag] at ha hb
    exact hc a b k' ha hb
  refine hflush.install ?_ i v
  intro j
  rw [flush_tag]
  exact hnone j

/-- **Eviction.**  A line is written back and used for another key: the other keys keep their
values. -/
theorem Holds.evict (h : c.Holds k v) (hc : c.Valid) (hk : k ≠ k') (i : ι) (v' : V) :
    ((c.flush i).install i k' v').Holds k v := by
  -- no line has taken over the key
  have htag : ∀ j, ((c.flush i).install i k' v').tag j = some k → j ≠ i ∧ c.tag j = some k := by
    intro j hj
    by_cases hji : j = i
    · rw [hji, install_tag_self, Option.some.injEq] at hj
      exact absurd hj.symm hk
    · rw [install_tag_of_ne _ hji, flush_tag] at hj
      exact ⟨hji, hj⟩
  by_cases hi : c.tag i = some k
  · refine Or.inr ⟨?_, ?_⟩
    · intro j hj
      obtain ⟨hji, hj⟩ := htag j hj
      exact hji (hc j i k hj hi)
    · exact (flush_back_self hi).trans (h.of_line hc hi)
  · rcases h with ⟨j, hj, hv⟩ | ⟨hnone, hv⟩
    · have hji : j ≠ i := by
        rintro rfl
        exact hi hj
      refine Or.inl ⟨j, ?_, ?_⟩
      · rw [install_tag_of_ne _ hji, flush_tag]
        exact hj
      · rw [install_line_of_ne _ hji, flush_line]
        exact hv
    · refine Or.inr ⟨?_, (flush_back_of_ne hi).trans hv⟩
      intro j hj
      exact hnone j (htag j hj).2

end Eviction

end Cache

end WriteBack
