/-
**Forests of nodes linked by references, and how an update of one reference changes them.**

A store of nodes, each holding references to further nodes, is read as a forest: from a root the
references are followed along a path of indices, and the null reference ends the walk.  Linked
lists and trees on a disk or in a heap are of this form.  The module says which node stands at
which *position* (a root and a path), what it means that the positions partition a set of nodes —
every node outside a set of detached ones stands at exactly one position — and how the elementary
updates change the positions and keep the partition.

Nothing here refers to a particular program: the roots, the indices and the nodes are arbitrary
types, and the set of positions that count is a parameter.

Main definitions:

* `PointerForest.walk`, `PointerForest.node` — following references along a path;
* `PointerForest.Located` — the slot that stores the reference to a position;
* `PointerForest.Partition` — the nodes of `U` outside `X` are in bijection with the positions.

Main results:

* `PointerForest.node_congr`, `PointerForest.node_retarget` — what an update of the slots does to
  the nodes;
* `PointerForest.Partition.link`, `PointerForest.Partition.unlink` — a detached node is stored in a
  null slot, or a slot is cleared;
* `PointerForest.Partition.push`, `PointerForest.Partition.pop` — a node is put above a root, or
  the root is replaced by one of its children.
-/

import Mathlib.Data.Set.Insert
import Mathlib.Data.List.Induction

set_option autoImplicit false

namespace PointerForest

variable {ρ ι ν : Type} [Zero ν] [DecidableEq ν]

/-! ### Following references -/

/-- The node reached from `b` along the path `p`, where `g c i` is the `i`-th reference stored in
the node `c`.  The null node has no references. -/
def walk (g : ν → ι → ν) (b : ν) (p : List ι) : ν :=
  p.foldl (fun c i => if c = 0 then 0 else g c i) b

theorem walk_cons (g : ν → ι → ν) (b : ν) (i : ι) (p : List ι) :
    walk g b (i :: p) = walk g (if b = 0 then 0 else g b i) p := rfl

@[simp] theorem walk_zero (g : ν → ι → ν) (p : List ι) : walk g 0 p = 0 := by
  induction p with
  | nil => rfl
  | cons i p ih => rw [walk_cons, if_pos rfl, ih]

theorem walk_cons_of_ne {g : ν → ι → ν} {b : ν} (hb : b ≠ 0) (i : ι) (p : List ι) :
    walk g b (i :: p) = walk g (g b i) p := by
  rw [walk_cons, if_neg hb]

theorem walk_append (g : ν → ι → ν) (b : ν) (p q : List ι) :
    walk g b (p ++ q) = walk g (walk g b p) q := List.foldl_append

theorem walk_concat (g : ν → ι → ν) (b : ν) (p : List ι) (i : ι) :
    walk g b (p ++ [i]) = if walk g b p = 0 then 0 else g (walk g b p) i := by
  rw [walk_append]
  rfl

/-- Only the references stored in the nodes along a path are read. -/
theorem walk_congr {g g' : ν → ι → ν} {b : ν} {valid : List ι → Prop}
    (hcl : ∀ p i, valid (p ++ [i]) → valid p)
    (h : ∀ p i, valid (p ++ [i]) → walk g b p ≠ 0 → g' (walk g b p) i = g (walk g b p) i) :
    ∀ p, valid p → walk g' b p = walk g b p := by
  intro p
  induction p using List.reverseRecOn with
  | nil => exact fun _ => rfl
  | append_singleton p i ih =>
      intro hv
      rw [walk_concat, walk_concat, ih (hcl p i hv)]
      by_cases h0 : walk g b p = 0
      · rw [if_pos h0, if_pos h0]
      · rw [if_neg h0, if_neg h0]
        exact h p i hv h0

/-- Where a reference is stored: in a root, or in a node at an index. -/
inductive Slot (ρ ι ν : Type) where
  | root (r : ρ)
  | ref (b : ν) (i : ι)

/-- The node at a position: the root `r` and the path `p` below it. -/
def node (f : Slot ρ ι ν → ν) (r : ρ) (p : List ι) : ν :=
  walk (fun b i => f (.ref b i)) (f (.root r)) p

@[simp] theorem node_nil (f : Slot ρ ι ν → ν) (r : ρ) : node f r [] = f (.root r) := rfl

theorem node_concat (f : Slot ρ ι ν → ν) (r : ρ) (p : List ι) (i : ι) :
    node f r (p ++ [i]) = if node f r p = 0 then 0 else f (.ref (node f r p) i) :=
  walk_concat _ _ _ _

/-- Below a null node everything is null. -/
theorem node_append_of_zero {f : Slot ρ ι ν → ν} {r : ρ} {p : List ι} (h : node f r p = 0)
    (q : List ι) : node f r (p ++ q) = 0 := by
  rw [node, walk_append]
  have h' : walk (fun b i => f (.ref b i)) (f (.root r)) p = 0 := h
  rw [h', walk_zero]

/-- The slot that stores the reference to a position. -/
inductive Located (f : Slot ρ ι ν → ν) : Slot ρ ι ν → ρ → List ι → Prop
  | root {r : ρ} : Located f (.root r) r []
  | ref {r : ρ} (q : List ι) (i : ι) : node f r q ≠ 0 →
      Located f (.ref (node f r q) i) r (q ++ [i])

theorem Located.value {f : Slot ρ ι ν → ν} {s : Slot ρ ι ν} {r : ρ} {p : List ι}
    (h : Located f s r p) : f s = node f r p := by
  cases h with
  | root => rfl
  | ref q i hq => rw [node_concat, if_neg hq]

/-- A position is stored in one slot only. -/
theorem Located.unique {f : Slot ρ ι ν → ν} {s t : Slot ρ ι ν} {r : ρ} {p : List ι}
    (h : Located f s r p) (h' : Located f t r p) : s = t := by
  cases h with
  | root =>
      generalize hp : ([] : List ι) = p at h'
      cases h' with
      | root => rfl
      | ref q i hq => simp at hp
  | ref q i hq =>
      generalize hp : q ++ [i] = p at h'
      cases h' with
      | root => simp at hp
      | ref q' i' hq' =>
          obtain ⟨rfl, hi⟩ := List.append_inj' hp rfl
          rw [List.cons.injEq] at hi
          rw [hi.1]

/-! ### Updates of the slots -/

section Update

variable {valid : ρ → List ι → Prop} {f f' : Slot ρ ι ν → ν}

/-- A root with a position below it is itself a position. -/
theorem valid_nil {r : ρ} (hcl : ∀ p i, valid r (p ++ [i]) → valid r p) {p : List ι}
    (hv : valid r p) : valid r [] := by
  induction p using List.reverseRecOn with
  | nil => exact hv
  | append_singleton p i ih => exact ih (hcl p i hv)

/-- Walking through new references from an old root, when the references along the way are the
old ones. -/
theorem walk_eq_node {r : ρ} (hcl : ∀ p i, valid r (p ++ [i]) → valid r p)
    (h : ∀ p i, valid r (p ++ [i]) → node f r p ≠ 0 →
      f' (.ref (node f r p) i) = f (.ref (node f r p) i)) {p : List ι} (hv : valid r p) :
    walk (fun b i => f' (.ref b i)) (f (.root r)) p = node f r p :=
  walk_congr (g := fun b i => f (.ref b i)) hcl (fun q i hq h0 => h q i hq h0) p hv

/-- **Only the slots that are located at a position are read.** -/
theorem node_congr (valid : ρ → List ι → Prop) (hcl : ∀ r p i, valid r (p ++ [i]) → valid r p)
    (h : ∀ s r p, valid r p → Located f s r p → f' s = f s) :
    ∀ r p, valid r p → node f' r p = node f r p := by
  intro r p hv
  rw [node, h _ r [] (valid_nil (hcl r) hv) .root]
  exact walk_eq_node (hcl r) (fun q i hq h0 => h _ r (q ++ [i]) hq (.ref q i h0)) hv

/-- **Changing the slot of one position** changes the node at that position and no other, provided
nothing stands below it before or after. -/
theorem node_retarget (hcl : ∀ r p i, valid r (p ++ [i]) → valid r p)
    {s : Slot ρ ι ν} {r : ρ} {p : List ι} (hs : Located f s r p)
    (hbelow : ∀ i, valid r (p ++ [i]) → node f r (p ++ [i]) = 0)
    (hbelow' : ∀ i, valid r (p ++ [i]) → f' s ≠ 0 → f' (.ref (f' s) i) = 0)
    (hrest : ∀ t r' p', valid r' p' → Located f t r' p' → ¬ (r' = r ∧ p' = p) → f' t = f t) :
    ∀ r' p', valid r' p' →
      (r' = r ∧ p' = p → node f' r' p' = f' s) ∧
        (¬ (r' = r ∧ p' = p) → node f' r' p' = node f r' p') := by
  intro r' p'
  -- induction on the path from its far end: the slot of `q ++ [j]` lies in the node at `q`
  induction p' using List.reverseRecOn with
  | nil =>
      intro hv
      constructor
      · rintro ⟨rfl, rfl⟩
        have : s = .root r' := hs.unique .root
        rw [this]
        rfl
      · exact fun hne => hrest _ r' [] hv .root hne
  | append_singleton q j ih =>
      intro hv
      obtain ⟨hat, hoff⟩ := ih (hcl r' q j hv)
      by_cases hq : r' = r ∧ q = p
      · -- strictly below the changed position
        obtain ⟨rfl, rfl⟩ := hq
        refine ⟨fun h => absurd h.2 (by simp), fun _ => ?_⟩
        rw [node_concat, hat ⟨rfl, rfl⟩, hbelow j hv]
        by_cases h0 : f' s = 0
        · rw [if_pos h0]
        · rw [if_neg h0]
          exact hbelow' j hv h0
      · have hqn := hoff hq
        by_cases h0 : node f r' q = 0
        · have hzero : node f r' (q ++ [j]) = 0 := node_append_of_zero h0 [j]
          have hzero' : node f' r' (q ++ [j]) = 0 := node_append_of_zero (by rw [hqn, h0]) [j]
          refine ⟨?_, fun _ => by rw [hzero, hzero']⟩
          rintro ⟨rfl, rfl⟩
          generalize hp : q ++ [j] = p at hs
          cases hs with
          | root => simp at hp
          | ref q' j' hq' =>
              obtain ⟨rfl, -⟩ := List.append_inj' hp rfl
              exact absurd h0 hq'
        · have hloc : Located f (.ref (node f r' q) j) r' (q ++ [j]) := .ref q j h0
          rw [node_concat, hqn, if_neg h0]
          refine ⟨?_, fun hne => ?_⟩
          · rintro ⟨rfl, rfl⟩
            rw [hs.unique hloc]
          · rw [hrest _ r' (q ++ [j]) hv hloc hne, hloc.value]

end Update

/-! ### Partitions -/

/-- **The positions partition the nodes**: among the nodes of `U`, those of `X` are detached and
each of the others stands at exactly one position; every position that is not null names a node
of `U`. -/
structure Partition (f : Slot ρ ι ν → ν) (valid : ρ → List ι → Prop) (U X : Set ν) : Prop where
  /-- No node stands at two positions. -/
  inj : ∀ {r p r' p'}, valid r p → valid r' p' → node f r p ≠ 0 →
    node f r p = node f r' p' → r = r' ∧ p = p'
  /-- The nodes at the positions are nodes of `U` that are not detached. -/
  mem : ∀ {r p}, valid r p → node f r p ≠ 0 → node f r p ∈ U ∧ node f r p ∉ X
  /-- Every node of `U` is detached or stands at a position. -/
  cover : ∀ {b}, b ∈ U → b ∉ X → ∃ r p, valid r p ∧ node f r p = b
  /-- The null reference is not a node. -/
  zero : (0 : ν) ∉ U
  /-- Detached nodes are nodes of `U`. -/
  sub : X ⊆ U

namespace Partition

variable {valid valid' : ρ → List ι → Prop} {f f' : Slot ρ ι ν → ν} {U X : Set ν}

theorem ne_zero (h : Partition f valid U X) {b : ν} (hb : b ∈ X) : b ≠ 0 := by
  rintro rfl
  exact h.zero (h.sub hb)

/-- A slot is located at one position only. -/
theorem located_inj (h : Partition f valid U X)
    (hcl : ∀ r p i, valid r (p ++ [i]) → valid r p) {s : Slot ρ ι ν} {r r' : ρ} {p p' : List ι}
    (hs : Located f s r p) (hs' : Located f s r' p') (hv : valid r p) (hv' : valid r' p') :
    r = r' ∧ p = p' := by
  cases hs with
  | root =>
      cases hs' with
      | root => exact ⟨rfl, rfl⟩
  | ref q i hq =>
      generalize hb : node f r q = b at hs'
      cases hs' with
      | ref q' _ hq' =>
          obtain ⟨rfl, rfl⟩ := h.inj (hcl _ _ _ hv) (hcl _ _ _ hv') hq hb
          exact ⟨rfl, rfl⟩

/-- Slots outside the positions are irrelevant. -/
theorem congr (h : Partition f valid U X) (hcl : ∀ r p i, valid r (p ++ [i]) → valid r p)
    (hf : ∀ s r p, valid r p → Located f s r p → f' s = f s) : Partition f' valid U X := by
  have hn := node_congr valid hcl hf
  refine ⟨?_, ?_, ?_, h.zero, h.sub⟩
  · intro r p r' p' hv hv' h0 he
    rw [hn r p hv] at h0 he
    rw [hn r' p' hv'] at he
    exact h.inj hv hv' h0 he
  · intro r p hv h0
    rw [hn r p hv] at h0 ⊢
    exact h.mem hv h0
  · intro b hb hx
    obtain ⟨r, p, hv, hp⟩ := h.cover hb hx
    exact ⟨r, p, hv, by rw [hn r p hv, hp]⟩

/-- Positions at which there is no node can be added. -/
theorem extend (h : Partition f valid U X) (hle : ∀ {r p}, valid r p → valid' r p)
    (hnull : ∀ {r p}, valid' r p → node f r p ≠ 0 → valid r p) : Partition f valid' U X := by
  refine ⟨?_, fun hv h0 => h.mem (hnull hv h0) h0, ?_, h.zero, h.sub⟩
  · intro r p r' p' hv hv' h0 he
    exact h.inj (hnull hv h0) (hnull hv' (he ▸ h0)) h0 he
  · intro b hb hx
    obtain ⟨r, p, hv, hp⟩ := h.cover hb hx
    exact ⟨r, p, hle hv, hp⟩

/-- When positions are given up, the nodes that stood there are detached. -/
theorem restrict (h : Partition f valid U X) (hle : ∀ {r p}, valid' r p → valid r p) :
    Partition f valid' U {b | b ∈ U ∧ ∀ r p, valid' r p → node f r p ≠ b} := by
  refine ⟨fun hv hv' => h.inj (hle hv) (hle hv'), ?_, ?_, h.zero, fun b hb => hb.1⟩
  · intro r p hv h0
    exact ⟨(h.mem (hle hv) h0).1, fun hx => hx.2 r p hv rfl⟩
  · intro b hb hx
    by_contra hnone
    push Not at hnone
    exact hx ⟨hb, hnone⟩

section Relink

variable {s : Slot ρ ι ν} {r : ρ} {p : List ι}

/-- The nodes after a detached node `b` has been stored in a null slot. -/
theorem node_link (h : Partition f valid U X) (f' : Slot ρ ι ν → ν)
    (hcl : ∀ r p i, valid r (p ++ [i]) → valid r p)
    (hs : Located f s r p) (hv : valid r p) (h0 : f s = 0) (hb : f' s ∈ X)
    (hnew : ∀ i, valid r (p ++ [i]) → f' (.ref (f' s) i) = 0)
    (hrest : ∀ t, t ≠ s → (∀ i, t ≠ .ref (f' s) i) →
      (∃ r' p', valid r' p' ∧ Located f t r' p') → f' t = f t) :
    node f' r p = f' s ∧
      ∀ r' p', valid r' p' → ¬ (r' = r ∧ p' = p) → node f' r' p' = node f r' p' := by
  have hnode : node f r p = 0 := by rw [← hs.value, h0]
  have hsame : ∀ t r' p', valid r' p' → Located f t r' p' → ¬ (r' = r ∧ p' = p) → f' t = f t := by
    intro t r' p' hv' ht hne
    refine hrest t ?_ ?_ ⟨r', p', hv', ht⟩
    · intro he
      subst he
      obtain ⟨h₁, h₂⟩ := h.located_inj hcl hs ht hv hv'
      exact hne ⟨h₁.symm, h₂.symm⟩
    · -- the slots of the new node are not located anywhere: it is detached
      intro i he
      subst he
      generalize hc : f' s = c at ht
      cases ht with
      | ref q _ hq => exact (h.mem (hcl _ _ _ hv') hq).2 (hc ▸ hb)
  have key := node_retarget hcl hs (fun i _ => node_append_of_zero hnode [i])
    (fun i hi _ => hnew i hi) hsame
  exact ⟨(key r p hv).1 ⟨rfl, rfl⟩, fun r' p' hv' hne => (key r' p' hv').2 hne⟩

/-- **Storing a detached node in a null slot** attaches it. -/
theorem link (h : Partition f valid U X) (f' : Slot ρ ι ν → ν)
    (hcl : ∀ r p i, valid r (p ++ [i]) → valid r p)
    (hs : Located f s r p) (hv : valid r p) (h0 : f s = 0) (hb : f' s ∈ X)
    (hnew : ∀ i, valid r (p ++ [i]) → f' (.ref (f' s) i) = 0)
    (hrest : ∀ t, t ≠ s → (∀ i, t ≠ .ref (f' s) i) →
      (∃ r' p', valid r' p' ∧ Located f t r' p') → f' t = f t) :
    Partition f' valid U (X \ {f' s}) := by
  obtain ⟨hat, hoff⟩ := h.node_link f' hcl hs hv h0 hb hnew hrest
  have hnode : node f r p = 0 := by rw [← hs.value, h0]
  -- no other position can name the node that was detached
  have hfresh : ∀ {r' p'}, valid r' p' → ¬ (r' = r ∧ p' = p) → node f' r' p' ≠ f' s := by
    intro r' p' hv' hne he
    rw [hoff r' p' hv' hne] at he
    have hne0 : node f r' p' ≠ 0 := by rw [he]; exact h.ne_zero hb
    exact (h.mem hv' hne0).2 (he ▸ hb)
  refine ⟨?_, ?_, ?_, h.zero, fun b hx => h.sub hx.1⟩
  · intro r₁ p₁ r₂ p₂ hv₁ hv₂ hne he
    by_cases h₁ : r₁ = r ∧ p₁ = p
    · by_cases h₂ : r₂ = r ∧ p₂ = p
      · exact ⟨h₁.1.trans h₂.1.symm, h₁.2.trans h₂.2.symm⟩
      · obtain ⟨rfl, rfl⟩ := h₁
        exact absurd (he.symm.trans hat) (hfresh hv₂ h₂)
    · by_cases h₂ : r₂ = r ∧ p₂ = p
      · obtain ⟨rfl, rfl⟩ := h₂
        exact absurd (he.trans hat) (hfresh hv₁ h₁)
      · rw [hoff _ _ hv₁ h₁] at hne he
        rw [hoff _ _ hv₂ h₂] at he
        exact h.inj hv₁ hv₂ hne he
  · intro r₁ p₁ hv₁ hne
    by_cases h₁ : r₁ = r ∧ p₁ = p
    · obtain ⟨rfl, rfl⟩ := h₁
      rw [hat]
      exact ⟨h.sub hb, fun hx => hx.2 rfl⟩
    · have hne' := hfresh hv₁ h₁
      rw [hoff _ _ hv₁ h₁] at hne hne' ⊢
      exact ⟨(h.mem hv₁ hne).1, fun hx => (h.mem hv₁ hne).2 hx.1⟩
  · intro b hbU hbX
    by_cases hbs : b = f' s
    · exact ⟨r, p, hv, by rw [hat, hbs]⟩
    · obtain ⟨r₁, p₁, hv₁, rfl⟩ := h.cover hbU (fun hx => hbX ⟨hx, hbs⟩)
      have h₁ : ¬ (r₁ = r ∧ p₁ = p) := by
        rintro ⟨rfl, rfl⟩
        exact h.zero (hnode ▸ hbU)
      exact ⟨r₁, p₁, hv₁, hoff _ _ hv₁ h₁⟩

/-- The nodes after the slot of a position with nothing below it has been cleared. -/
theorem node_unlink (h : Partition f valid U X) (f' : Slot ρ ι ν → ν)
    (hcl : ∀ r p i, valid r (p ++ [i]) → valid r p)
    (hs : Located f s r p) (hv : valid r p) (hmax : ∀ i, ¬ valid r (p ++ [i])) (h0 : f' s = 0)
    (hrest : ∀ t, t ≠ s → (∃ r' p', valid r' p' ∧ Located f t r' p') → f' t = f t) :
    node f' r p = 0 ∧
      ∀ r' p', valid r' p' → ¬ (r' = r ∧ p' = p) → node f' r' p' = node f r' p' := by
  have hsame : ∀ t r' p', valid r' p' → Located f t r' p' → ¬ (r' = r ∧ p' = p) → f' t = f t := by
    intro t r' p' hv' ht hne
    refine hrest t ?_ ⟨r', p', hv', ht⟩
    intro he
    subst he
    obtain ⟨h₁, h₂⟩ := h.located_inj hcl hs ht hv hv'
    exact hne ⟨h₁.symm, h₂.symm⟩
  have key := node_retarget hcl hs (fun i hi => absurd hi (hmax i))
    (fun i hi _ => absurd hi (hmax i)) hsame
  exact ⟨by rw [(key r p hv).1 ⟨rfl, rfl⟩, h0], fun r' p' hv' hne => (key r' p' hv').2 hne⟩

/-- **Clearing the slot of a position with nothing below it** detaches its node. -/
theorem unlink (h : Partition f valid U X) (f' : Slot ρ ι ν → ν)
    (hcl : ∀ r p i, valid r (p ++ [i]) → valid r p)
    (hs : Located f s r p) (hv : valid r p) (hmax : ∀ i, ¬ valid r (p ++ [i])) (hne : f s ≠ 0)
    (h0 : f' s = 0)
    (hrest : ∀ t, t ≠ s → (∃ r' p', valid r' p' ∧ Located f t r' p') → f' t = f t) :
    Partition f' valid U (insert (f s) X) := by
  obtain ⟨hat, hoff⟩ := h.node_unlink f' hcl hs hv hmax h0 hrest
  have hval := hs.value
  have hold : node f r p ≠ 0 := by rw [← hval]; exact hne
  refine ⟨?_, ?_, ?_, h.zero, ?_⟩
  · intro r₁ p₁ r₂ p₂ hv₁ hv₂ hne₁ he
    have h₁ : ¬ (r₁ = r ∧ p₁ = p) := by
      rintro ⟨rfl, rfl⟩
      exact hne₁ hat
    have h₂ : ¬ (r₂ = r ∧ p₂ = p) := by
      rintro ⟨rfl, rfl⟩
      exact hne₁ (he.trans hat)
    rw [hoff _ _ hv₁ h₁] at hne₁ he
    rw [hoff _ _ hv₂ h₂] at he
    exact h.inj hv₁ hv₂ hne₁ he
  · intro r₁ p₁ hv₁ hne₁
    have h₁ : ¬ (r₁ = r ∧ p₁ = p) := by
      rintro ⟨rfl, rfl⟩
      exact hne₁ hat
    rw [hoff _ _ hv₁ h₁] at hne₁ ⊢
    refine ⟨(h.mem hv₁ hne₁).1, ?_⟩
    rintro (he | hx)
    · exact h₁ (h.inj hv₁ hv hne₁ (he.trans hval))
    · exact (h.mem hv₁ hne₁).2 hx
  · intro b hbU hbX
    rw [Set.mem_insert_iff, not_or] at hbX
    obtain ⟨r₁, p₁, hv₁, rfl⟩ := h.cover hbU hbX.2
    have h₁ : ¬ (r₁ = r ∧ p₁ = p) := by
      rintro ⟨rfl, rfl⟩
      exact hbX.1 hval.symm
    exact ⟨r₁, p₁, hv₁, hoff _ _ hv₁ h₁⟩
  · rintro b (rfl | hx)
    · rw [hval]
      exact (h.mem hv hold).1
    · exact h.sub hx

end Relink

section Reroot

variable {r : ρ} {i₀ : ι}

/-- The nodes after a node has been put above the root `r`, with the old tree as its child `i₀`:
the old positions have moved one level down. -/
theorem node_push (hcl : ∀ r p i, valid r (p ++ [i]) → valid r p) (hb : f' (.root r) ≠ 0)
    (hdown : f' (.ref (f' (.root r)) i₀) = f (.root r))
    (hroots : ∀ r', r' ≠ r → valid r' [] → f' (.root r') = f (.root r'))
    (hrefs : ∀ r' p i, valid r' (p ++ [i]) → node f r' p ≠ 0 →
      f' (.ref (node f r' p) i) = f (.ref (node f r' p) i)) :
    (∀ p, valid r p → node f' r (i₀ :: p) = node f r p) ∧
      ∀ r' p, r' ≠ r → valid r' p → node f' r' p = node f r' p := by
  constructor
  · intro p hv
    rw [node, walk_cons_of_ne hb, hdown]
    exact walk_eq_node (hcl r) (hrefs r) hv
  · intro r' p hne hv
    rw [node, hroots r' hne (valid_nil (hcl r') hv)]
    exact walk_eq_node (hcl r') (hrefs r') hv

/-- **Putting a detached node above a root** keeps the partition.  The new node may carry further
detached nodes as children with nothing below them; they are attached as well. -/
theorem push (h : Partition f valid U X) (f' : Slot ρ ι ν → ν) (i₀ : ι)
    (hcl : ∀ r p i, valid r (p ++ [i]) → valid r p)
    (hb : f' (.root r) ∈ X) (hdown : f' (.ref (f' (.root r)) i₀) = f (.root r))
    (hroots : ∀ r', r' ≠ r → valid r' [] → f' (.root r') = f (.root r'))
    (hrefs : ∀ r' p i, valid r' (p ++ [i]) → node f r' p ≠ 0 →
      f' (.ref (node f r' p) i) = f (.ref (node f r' p) i))
    (hvr : ∀ p, valid' r (i₀ :: p) ↔ valid r p) (hvr₀ : valid' r [])
    (hvo : ∀ r' p, r' ≠ r → (valid' r' p ↔ valid r' p))
    (hleaf : ∀ j p, j ≠ i₀ → valid' r (j :: p) → f' (.ref (f' (.root r)) j) ≠ 0 →
      f' (.ref (f' (.root r)) j) ∈ X ∧ f' (.ref (f' (.root r)) j) ≠ f' (.root r) ∧ p = [])
    (hinj : ∀ j k, j ≠ i₀ → k ≠ i₀ → f' (.ref (f' (.root r)) j) ≠ 0 →
      f' (.ref (f' (.root r)) j) = f' (.ref (f' (.root r)) k) → j = k) :
    Partition f' valid' U
      (X \ {b | b = f' (.root r) ∨ ∃ j, j ≠ i₀ ∧ valid' r [j] ∧
        f' (.ref (f' (.root r)) j) = b}) := by
  have hb0 := h.ne_zero hb
  obtain ⟨hdn, hoth⟩ := node_push hcl hb0 hdown hroots hrefs
  -- the positions of the new forest, one by one
  have hchild : ∀ j p, j ≠ i₀ → valid' r (j :: p) → node f' r (j :: p) ≠ 0 →
      p = [] ∧ node f' r (j :: p) = f' (.ref (f' (.root r)) j) := by
    intro j p hj hv hne
    have hw : node f' r (j :: p) = walk (fun b i => f' (.ref b i)) (f' (.ref (f' (.root r)) j)) p :=
      walk_cons_of_ne hb0 j p
    have hc : f' (.ref (f' (.root r)) j) ≠ 0 := by
      intro h0
      rw [hw, h0, walk_zero] at hne
      exact hne rfl
    obtain ⟨-, -, rfl⟩ := hleaf j p hj hv hc
    exact ⟨rfl, hw⟩
  -- every position names either a node that was attached before or a new one
  have hcase : ∀ r' p, valid' r' p → node f' r' p ≠ 0 →
      (∃ p', valid r' p' ∧ node f' r' p = node f r' p' ∧
        ((r' ≠ r ∧ p = p') ∨ (r' = r ∧ p = i₀ :: p'))) ∨
      (r' = r ∧ p = [] ∧ node f' r' p = f' (.root r)) ∨
      (r' = r ∧ ∃ j, j ≠ i₀ ∧ p = [j] ∧ node f' r' p = f' (.ref (f' (.root r)) j) ∧
        f' (.ref (f' (.root r)) j) ∈ X ∧ f' (.ref (f' (.root r)) j) ≠ f' (.root r)) := by
    intro r' p hv hne
    by_cases hr : r' = r
    · subst hr
      cases p with
      | nil => exact Or.inr (Or.inl ⟨rfl, rfl, rfl⟩)
      | cons j p =>
          by_cases hj : j = i₀
          · subst hj
            exact Or.inl ⟨p, (hvr p).1 hv, hdn p ((hvr p).1 hv), Or.inr ⟨rfl, rfl⟩⟩
          · obtain ⟨rfl, hval⟩ := hchild j p hj hv hne
            rw [hval] at hne
            obtain ⟨hX, hneb, -⟩ := hleaf j [] hj hv hne
            exact Or.inr (Or.inr ⟨rfl, j, hj, rfl, hval, hX, hneb⟩)
    · exact Or.inl ⟨p, (hvo r' p hr).1 hv, hoth r' p hr ((hvo r' p hr).1 hv), Or.inl ⟨hr, rfl⟩⟩
  have hattached : ∀ r' p b, valid r' p → node f r' p = b → b ∈ X → False := by
    intro r' p b hv he hx
    subst he
    exact (h.mem hv (h.ne_zero hx)).2 hx
  refine ⟨?_, ?_, ?_, h.zero, fun b hx => h.sub hx.1⟩
  · intro r₁ p₁ r₂ p₂ hv₁ hv₂ hne he
    have hne₂ : node f' r₂ p₂ ≠ 0 := he ▸ hne
    rcases hcase r₁ p₁ hv₁ hne with
        ⟨q₁, hq₁, hn₁, hp₁⟩ | ⟨rfl, rfl, hn₁⟩ | ⟨rfl, j₁, hj₁, rfl, hn₁, hX₁, hb₁⟩ <;>
      rcases hcase r₂ p₂ hv₂ hne₂ with
        ⟨q₂, hq₂, hn₂, hp₂⟩ | ⟨rfl, rfl, hn₂⟩ | ⟨rfl, j₂, hj₂, rfl, hn₂, hX₂, hb₂⟩
    · rw [hn₁] at hne
      rw [hn₁, hn₂] at he
      obtain ⟨rfl, rfl⟩ := h.inj hq₁ hq₂ hne he
      rcases hp₁ with ⟨hr₁, rfl⟩ | ⟨rfl, rfl⟩ <;> rcases hp₂ with ⟨hr₂, rfl⟩ | ⟨hr₂, rfl⟩
      · exact ⟨rfl, rfl⟩
      · exact absurd hr₂ hr₁
      · exact absurd rfl hr₂
      · exact ⟨rfl, rfl⟩
    · exact (hattached r₁ q₁ _ hq₁ (hn₁.symm.trans (he.trans hn₂)) hb).elim
    · exact (hattached r₁ q₁ _ hq₁ (hn₁.symm.trans (he.trans hn₂)) hX₂).elim
    · exact (hattached r₂ q₂ _ hq₂ (hn₂.symm.trans (he.symm.trans hn₁)) hb).elim
    · exact ⟨rfl, rfl⟩
    · exact absurd (hn₂.symm.trans (he.symm.trans hn₁)) hb₂
    · exact (hattached r₂ q₂ _ hq₂ (hn₂.symm.trans (he.symm.trans hn₁)) hX₁).elim
    · exact absurd (hn₁.symm.trans (he.trans hn₂)) hb₁
    · rw [hn₁] at hne
      rw [hn₁, hn₂] at he
      rw [hinj j₁ j₂ hj₁ hj₂ hne he]
      exact ⟨rfl, rfl⟩
  · intro r₁ p₁ hv₁ hne
    rcases hcase r₁ p₁ hv₁ hne with
      ⟨q, hq, hn, -⟩ | ⟨rfl, rfl, hn⟩ | ⟨rfl, j, hj, rfl, hn, hX, -⟩
    · rw [hn] at hne ⊢
      exact ⟨(h.mem hq hne).1, fun hx => (h.mem hq hne).2 hx.1⟩
    · rw [hn]
      exact ⟨h.sub hb, fun hx => hx.2 (Or.inl rfl)⟩
    · rw [hn]
      exact ⟨h.sub hX, fun hx => hx.2 (Or.inr ⟨j, hj, hv₁, rfl⟩)⟩
  · intro b hbU hbX
    by_cases hnew : b = f' (.root r) ∨
        ∃ j, j ≠ i₀ ∧ valid' r [j] ∧ f' (.ref (f' (.root r)) j) = b
    · rcases hnew with rfl | ⟨j, hj, hv, rfl⟩
      · exact ⟨r, [], hvr₀, rfl⟩
      · exact ⟨r, [j], hv, walk_cons_of_ne hb0 j []⟩
    · obtain ⟨r', p, hv, rfl⟩ := h.cover hbU (fun hx => hbX ⟨hx, hnew⟩)
      by_cases hr : r' = r
      · subst hr
        exact ⟨r', i₀ :: p, (hvr p).2 hv, hdn p hv⟩
      · exact ⟨r', p, (hvo r' p hr).2 hv, hoth r' p hr hv⟩

/-- The nodes after the root `r` has been replaced by its child `i₀`: the positions below that child
have moved one level up. -/
theorem node_pop (hcl : ∀ r p i, valid r (p ++ [i]) → valid r p) (hne : f (.root r) ≠ 0)
    (hup : f' (.root r) = f (.ref (f (.root r)) i₀))
    (hroots : ∀ r', r' ≠ r → valid r' [] → f' (.root r') = f (.root r'))
    (hrefs : ∀ r' p i, valid r' (p ++ [i]) → node f r' p ≠ 0 →
      f' (.ref (node f r' p) i) = f (.ref (node f r' p) i))
    (hvr : ∀ p, valid r (i₀ :: p) ↔ valid r p) :
    (∀ p, valid r p → node f' r p = node f r (i₀ :: p)) ∧
      ∀ r' p, r' ≠ r → valid r' p → node f' r' p = node f r' p := by
  constructor
  · intro p hv
    have hwalk : ∀ q, node f r (i₀ :: q) =
        walk (fun b i => f (.ref b i)) (f (.ref (f (.root r)) i₀)) q :=
      fun q => walk_cons_of_ne hne i₀ q
    rw [node, hup, hwalk]
    refine walk_congr (hcl r) (fun q i hq h0 => ?_) p hv
    rw [← hwalk] at h0 ⊢
    exact hrefs r (i₀ :: q) i ((hvr _).2 hq) h0
  · intro r' p hr hv
    rw [node, hroots r' hr (valid_nil (hcl r') hv)]
    exact walk_eq_node (hcl r') (hrefs r') hv

/-- **Replacing a root by its only child** detaches the node that was there. -/
theorem pop (h : Partition f valid U X) (f' : Slot ρ ι ν → ν) (i₀ : ι)
    (hcl : ∀ r p i, valid r (p ++ [i]) → valid r p)
    (hne : f (.root r) ≠ 0) (hup : f' (.root r) = f (.ref (f (.root r)) i₀))
    (hroots : ∀ r', r' ≠ r → valid r' [] → f' (.root r') = f (.root r'))
    (hrefs : ∀ r' p i, valid r' (p ++ [i]) → node f r' p ≠ 0 →
      f' (.ref (node f r' p) i) = f (.ref (node f r' p) i))
    (hvr : ∀ p, valid r (i₀ :: p) ↔ valid r p) (hvr₀ : valid r [])
    (honly : ∀ j, j ≠ i₀ → f (.ref (f (.root r)) j) = 0) :
    Partition f' valid U (insert (f (.root r)) X) := by
  obtain ⟨hup', hoth⟩ := node_pop hcl hne hup hroots hrefs hvr
  have hroot : node f r [] = f (.root r) := rfl
  -- the position of `f` that a position of `f'` stands for
  have hcase : ∀ r' p, valid r' p → ∃ p', valid r' p' ∧ node f' r' p = node f r' p' ∧
      ((r' ≠ r ∧ p' = p) ∨ (r' = r ∧ p' = i₀ :: p)) := by
    intro r' p hv
    by_cases hr : r' = r
    · subst hr
      exact ⟨i₀ :: p, (hvr p).2 hv, hup' p hv, Or.inr ⟨rfl, rfl⟩⟩
    · exact ⟨p, hv, hoth r' p hr hv, Or.inl ⟨hr, rfl⟩⟩
  refine ⟨?_, ?_, ?_, h.zero, ?_⟩
  · intro r₁ p₁ r₂ p₂ hv₁ hv₂ hne₁ he
    obtain ⟨q₁, hq₁, hn₁, hp₁⟩ := hcase r₁ p₁ hv₁
    obtain ⟨q₂, hq₂, hn₂, hp₂⟩ := hcase r₂ p₂ hv₂
    rw [hn₁] at hne₁
    rw [hn₁, hn₂] at he
    obtain ⟨rfl, rfl⟩ := h.inj hq₁ hq₂ hne₁ he
    rcases hp₁ with ⟨hr₁, rfl⟩ | ⟨rfl, rfl⟩ <;> rcases hp₂ with ⟨hr₂, hp₂⟩ | ⟨hr₂, hp₂⟩
    · exact ⟨rfl, hp₂⟩
    · exact absurd hr₂ hr₁
    · exact absurd rfl hr₂
    · exact ⟨rfl, (List.cons.inj hp₂).2⟩
  · intro r₁ p₁ hv₁ hne₁
    obtain ⟨q₁, hq₁, hn₁, hp₁⟩ := hcase r₁ p₁ hv₁
    rw [hn₁] at hne₁ ⊢
    refine ⟨(h.mem hq₁ hne₁).1, ?_⟩
    rintro (he | hx)
    · obtain ⟨rfl, rfl⟩ := h.inj hq₁ hvr₀ hne₁ (he.trans hroot.symm)
      rcases hp₁ with ⟨hr₁, -⟩ | ⟨-, hp⟩
      · exact hr₁ rfl
      · simp at hp
    · exact (h.mem hq₁ hne₁).2 hx
  · intro b hbU hbX
    rw [Set.mem_insert_iff, not_or] at hbX
    obtain ⟨r', p, hv, rfl⟩ := h.cover hbU hbX.2
    by_cases hr : r' = r
    · subst hr
      cases p with
      | nil => exact absurd rfl hbX.1
      | cons j p =>
          by_cases hj : j = i₀
          · subst hj
            exact ⟨r', p, (hvr p).1 hv, hup' p ((hvr p).1 hv)⟩
          · -- the other children of the root are null
            have h0 : node f r' (j :: p) = 0 := by
              rw [node, walk_cons_of_ne hne, honly j hj, walk_zero]
            exact absurd (h0 ▸ hbU) h.zero
    · exact ⟨r', p, hv, hoth r' p hr hv⟩
  · rintro b (rfl | hx)
    · exact (h.mem hvr₀ hne).1
    · exact h.sub hx

end Reroot

end Partition

end PointerForest
