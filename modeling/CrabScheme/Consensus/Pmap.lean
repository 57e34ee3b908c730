import CrabScheme.Lib.SearchTree

/-!
# The persistent map of the consensus library

The treap of `lib/consensus/pmap.scm`: a search tree on the keys that is a heap on priorities, where
the priority of a key is its `equal-hash`. The order of the keys and the hash are arbitrary. An
accessor that the source applies to the empty list raises an error there and is `none` here, so that
the results below also say that no call raises.

A history is a sequence of `pmap-set` and `pmap-del`, each applied to any version built before.

## Main results

* `pmIns_spec`, `pmDel_spec`, `pmGet_eq_some_iff` — the functions on trees, on their labels.
* `pmap_refines_maps` — all versions of every history agree with the maps they stand for.
-/

namespace CrabScheme.Consensus

open SearchTree

/-! ## Trees -/

/-- The label of a node: key, value and priority. -/
structure PmNode (K V : Type) where
  k : K
  v : V
  p : ℤ
  deriving DecidableEq, Repr

/-- A subtree: `'()` or `(key val priority left right)`. -/
abbrev Pm (K V : Type) := BinaryTree (PmNode K V)

section Functions

variable {K V A : Type} (keyLt : K → K → Bool) (equalHash : K → ℤ)

/-- The priority of a node. -/
def pmP : Pm K V → Option ℤ
  | .nil => none
  | .node n _ _ => some n.p

/-- **Insertion**: as in a search tree, with a rotation where the heap order asks for it. -/
def pmIns (k : K) (v : V) : Pm K V → Option (Pm K V)
  | .nil => some (.node ⟨k, v, equalHash k⟩ .nil .nil)
  | .node n l r =>
    if keyLt k n.k then do
      let nl ← pmIns k v l
      let t := .node n nl r
      -- min-heap on priority
      if (← pmP nl) < n.p then rotateRight t else some t
    else if keyLt n.k k then do
      let nr ← pmIns k v r
      let t := .node n l nr
      if (← pmP nr) < n.p then rotateLeft t else some t
    else
      -- update value
      some (.node ⟨k, v, n.p⟩ l r)

/-- The label of the node at a key. -/
def pmGet (k : K) : Pm K V → Option (PmNode K V)
  | .nil => none
  | .node n l r =>
    if keyLt k n.k then pmGet k l
    else if keyLt n.k k then pmGet k r
    else some n

/-- **Deletion**: the node is rotated down until one of its subtrees is empty. -/
def pmDel (k : K) : Pm K V → Option (Pm K V)
  | .nil => some .nil
  | .node n l r =>
    if keyLt k n.k then (pmDel k l).map fun d => .node n d r
    else if keyLt n.k k then (pmDel k r).map fun d => .node n l d
    else
      match l, r with
      | .nil, r => some r
      | l, .nil => some l
      | .node a al ar, .node b bl br =>
        if a.p < b.p then
          -- after `pm:rot-right`, the deletion goes on in the right subtree
          (pmDel k (.node n ar (.node b bl br))).map fun d => .node a al d
        else
          -- after `pm:rot-left`, in the left one
          (pmDel k (.node n (.node a al ar) bl)).map fun d => .node b d br
termination_by t => t.numNodes
decreasing_by all_goals simp only [BinaryTree.numNodes]; omega

/-- The fold in ascending order of the keys. -/
def pmFold (f : K → V → A → A) : Pm K V → A → A
  | .nil, acc => acc
  | .node n l r, acc => pmFold f r (f n.k n.v (pmFold f l acc))

end Functions

/-! ## The public surface -/

/-- **A map** `(key<? . root)`. -/
structure Pmap (K V : Type) where
  keyLt : K → K → Bool
  root : Pm K V

section Surface

variable {K V A : Type} (equalHash : K → ℤ)

/-- The empty map ordered by `key<?`. -/
def pmap (keyLt : K → K → Bool) : Pmap K V := ⟨keyLt, .nil⟩

/-- The value of a key, or the default. -/
def pmapRef (m : Pmap K V) (k : K) (default : V) : V :=
  match pmGet m.keyLt k m.root with
  | some n => n.v
  | none => default

/-- The map with the key bound to the value. -/
def pmapSet (m : Pmap K V) (k : K) (v : V) : Option (Pmap K V) :=
  (pmIns m.keyLt equalHash k v m.root).map fun t => ⟨m.keyLt, t⟩

/-- The map without the key. -/
def pmapDel (m : Pmap K V) (k : K) : Option (Pmap K V) :=
  (pmDel m.keyLt k m.root).map fun t => ⟨m.keyLt, t⟩

/-- The fold over the bindings. -/
def pmapFold (m : Pmap K V) (f : K → V → A → A) (acc : A) : A := pmFold f m.root acc

/-- The number of bindings, counted by a fold. -/
def pmapSize (m : Pmap K V) : ℕ := pmapFold m (fun _ _ a => a + 1) 0

end Surface

/-! ## The invariants -/

section Invariants

variable {K V : Type}

/-- Labels in the order of their keys. -/
def KeyBefore (keyLt : K → K → Bool) (a b : PmNode K V) : Prop := keyLt a.k b.k = true

instance (keyLt : K → K → Bool) [IsTrans K fun a b => keyLt a b = true] :
    IsTrans (PmNode K V) (KeyBefore keyLt) :=
  ⟨fun a b c => IsTrans.trans (r := fun a b => keyLt a b = true) a.k b.k c.k⟩

/-- **The invariants of a version**: the keys are in order, no node has a smaller priority than the
one above it, and priorities are the hashes of the keys. -/
structure Treap (keyLt : K → K → Bool) (equalHash : K → ℤ) (t : Pm K V) : Prop where
  ordered : Ordered (KeyBefore keyLt) t
  heap : HeapOrdered (fun a b => a.p ≤ b.p) t
  hashed : ∀ n ∈ inorder t, n.p = equalHash n.k

variable {keyLt : K → K → Bool} {equalHash : K → ℤ} {t l r : Pm K V} {n : PmNode K V} {k : K}
  {v : V}

lemma treap_nil : Treap keyLt equalHash (.nil : Pm K V) := ⟨trivial, trivial, by simp⟩

lemma treap_node_iff : Treap keyLt equalHash (.node n l r) ↔
    (∀ b ∈ inorder l, keyLt b.k n.k = true ∧ n.p ≤ b.p) ∧
    (∀ b ∈ inorder r, keyLt n.k b.k = true ∧ n.p ≤ b.p) ∧
    n.p = equalHash n.k ∧ Treap keyLt equalHash l ∧ Treap keyLt equalHash r := by
  constructor
  · rintro ⟨⟨hl, hr, hol, hor⟩, ⟨hpl, hpr, hhl, hhr⟩, hh⟩
    refine ⟨fun b hb => ⟨hl b hb, hpl b hb⟩, fun b hb => ⟨hr b hb, hpr b hb⟩, hh n (by simp),
      ⟨hol, hhl, fun b hb => hh b (by simp [hb])⟩, ⟨hor, hhr, fun b hb => hh b (by simp [hb])⟩⟩
  · rintro ⟨hl, hr, hn, ⟨hol, hhl, hhashl⟩, ⟨hor, hhr, hhashr⟩⟩
    refine ⟨⟨fun b hb => (hl b hb).1, fun b hb => (hr b hb).1, hol, hor⟩,
      ⟨fun b hb => (hl b hb).2, fun b hb => (hr b hb).2, hhl, hhr⟩, fun b hb => ?_⟩
    rcases List.mem_append.mp hb with hb | hb
    · exact hhashl b hb
    · rcases List.mem_cons.mp hb with rfl | hb
      · exact hn
      · exact hhashr b hb

lemma Treap.root_le (ht : Treap keyLt equalHash (.node n l r)) {b : PmNode K V}
    (hb : b ∈ inorder (.node n l r)) : n.p ≤ b.p := by
  obtain ⟨hl, hr, -⟩ := treap_node_iff.mp ht
  simp only [inorder_node, List.mem_append, List.mem_cons] at hb
  rcases hb with hb | rfl | hb
  · exact (hl b hb).2
  · exact le_rfl
  · exact (hr b hb).2

variable [IsStrictTotalOrder K fun a b => keyLt a b = true]

lemma keyLt_irrefl (k : K) : ¬ keyLt k k = true := irrefl (r := fun a b => keyLt a b = true) k

lemma keyLt_trans {a b c : K} (hab : keyLt a b = true) (hbc : keyLt b c = true) :
    keyLt a c = true :=
  IsTrans.trans (r := fun a b => keyLt a b = true) a b c hab hbc

lemma eq_of_not_keyLt {a b : K} (hab : ¬ keyLt a b = true) (hba : ¬ keyLt b a = true) : a = b :=
  Std.Trichotomous.trichotomous (r := fun a b => keyLt a b = true) a b hab hba

lemma Treap.rotateRight {m : PmNode K V} {ml mr : Pm K V}
    (hl : Treap keyLt equalHash (.node m ml mr)) (hr : Treap keyLt equalHash r)
    (hn : n.p = equalHash n.k) (hln : ∀ b ∈ inorder (.node m ml mr), keyLt b.k n.k = true)
    (hnr : ∀ b ∈ inorder r, keyLt n.k b.k = true ∧ n.p ≤ b.p)
    (hmn : m.p ≤ n.p) (hmr : ∀ b ∈ inorder mr, n.p ≤ b.p) :
    Treap keyLt equalHash (.node m ml (.node n mr r)) := by
  obtain ⟨hml, hmr', hm, htl, htr⟩ := treap_node_iff.mp hl
  have hmn' : keyLt m.k n.k = true := hln m (by simp)
  refine treap_node_iff.mpr ⟨hml, fun b hb => ?_, hm, htl, treap_node_iff.mpr
    ⟨fun b hb => ⟨hln b (by simp [hb]), hmr b hb⟩, hnr, hn, htr, hr⟩⟩
  simp only [inorder_node, List.mem_append, List.mem_cons] at hb
  rcases hb with hb | rfl | hb
  · exact hmr' b hb
  · exact ⟨hmn', hmn⟩
  · exact ⟨keyLt_trans hmn' (hnr b hb).1, hmn.trans (hnr b hb).2⟩

lemma Treap.rotateLeft {m : PmNode K V} {ml mr : Pm K V}
    (hl : Treap keyLt equalHash l) (hr : Treap keyLt equalHash (.node m ml mr))
    (hn : n.p = equalHash n.k) (hln : ∀ b ∈ inorder l, keyLt b.k n.k = true ∧ n.p ≤ b.p)
    (hnr : ∀ b ∈ inorder (.node m ml mr), keyLt n.k b.k = true)
    (hmn : m.p ≤ n.p) (hml : ∀ b ∈ inorder ml, n.p ≤ b.p) :
    Treap keyLt equalHash (.node m (.node n l ml) mr) := by
  obtain ⟨hml', hmr, hm, htl, htr⟩ := treap_node_iff.mp hr
  have hnm : keyLt n.k m.k = true := hnr m (by simp)
  refine treap_node_iff.mpr ⟨fun b hb => ?_, hmr, hm, treap_node_iff.mpr
    ⟨hln, fun b hb => ⟨hnr b (by simp [hb]), hml b hb⟩, hn, hl, htl⟩, htr⟩
  simp only [inorder_node, List.mem_append, List.mem_cons] at hb
  rcases hb with hb | rfl | hb
  · exact ⟨keyLt_trans (hln b hb).1 hnm, hmn.trans (hln b hb).2⟩
  · exact ⟨hnm, hmn⟩
  · exact hml' b hb

/-! ## Insertion, lookup and deletion -/

/-- The labels after an insertion: the new one and the old ones at other keys. -/
def Inserted (equalHash : K → ℤ) (k : K) (v : V) (t t' : Pm K V) : Prop :=
  ∀ b, b ∈ inorder t' ↔ b = ⟨k, v, equalHash k⟩ ∨ b ∈ inorder t ∧ b.k ≠ k

lemma Inserted.below {m : PmNode K V} {ml mr : Pm K V}
    (hi : Inserted equalHash k v t (.node m ml mr))
    (ht : Treap keyLt equalHash (.node m ml mr)) (hm : m.k = k) {b : PmNode K V}
    (hb : b ∈ inorder ml ∨ b ∈ inorder mr) : b ∈ inorder t := by
  obtain ⟨hml, hmr, -⟩ := treap_node_iff.mp ht
  have hmem : b ∈ inorder (.node m ml mr) := by
    rcases hb with hb | hb <;> simp [hb]
  rcases (hi b).mp hmem with rfl | ⟨hb', -⟩
  · subst hm
    rcases hb with hb | hb
    · exact absurd (hml _ hb).1 (keyLt_irrefl _)
    · exact absurd (hmr _ hb).1 (keyLt_irrefl _)
  · exact hb'

/-- **Insertion** succeeds, keeps the invariants and binds the key. -/
lemma pmIns_spec (k : K) (v : V) (ht : Treap keyLt equalHash t) :
    ∃ m ml mr, pmIns keyLt equalHash k v t = some (.node m ml mr) ∧
      Treap keyLt equalHash (.node m ml mr) ∧ Inserted equalHash k v t (.node m ml mr) := by
  induction t with
  | nil => exact ⟨_, _, _, rfl, treap_node_iff.mpr (by simp [treap_nil]), by simp [Inserted]⟩
  | node n l r ihl ihr =>
    obtain ⟨hl, hr, hn, htl, htr⟩ := treap_node_iff.mp ht
    by_cases hlt : keyLt k n.k = true
    · obtain ⟨m, ml, mr, he, htm, hi⟩ := ihl htl
      have hln : ∀ b ∈ inorder (.node m ml mr), keyLt b.k n.k = true := fun b hb => by
        rcases (hi b).mp hb with rfl | ⟨hb, -⟩
        · exact hlt
        · exact (hl b hb).1
      -- the labels are those of the left result, the root and the right subtree
      have hmem : Inserted equalHash k v (.node n l r) (.node n (.node m ml mr) r) := fun b => by
        have hnk : n.k ≠ k := fun h => keyLt_irrefl _ (h ▸ hlt)
        have hrk : b ∈ inorder r → b.k ≠ k := fun hb h =>
          keyLt_irrefl _ (keyLt_trans (h ▸ (hr b hb).1) hlt)
        have := hi b
        simp only [inorder_node] at this ⊢
        grind
      simp only [pmIns, he, Option.bind_eq_bind, Option.bind_some, pmP]
      split_ifs with hp
      · -- the new label is the root of the result: it alone has a smaller priority
        have hmk : m.k = k := by
          rcases (hi m).mp (by simp) with h | ⟨h, -⟩
          · rw [h]
          · exact absurd (hl m h).2 (not_le.mpr hp)
        refine ⟨_, _, _, rfl, Treap.rotateRight htm htr hn hln hr hp.le fun b hb =>
          (hl b (hi.below htm hmk (.inr hb))).2, fun b => ?_⟩
        rw [← hmem b]
        simp
      · exact ⟨_, _, _, rfl, treap_node_iff.mpr ⟨fun b hb => ⟨hln b hb,
          (not_lt.mp hp).trans (htm.root_le hb)⟩, hr, hn, htm, htr⟩, hmem⟩
    by_cases hgt : keyLt n.k k = true
    · obtain ⟨m, ml, mr, he, htm, hi⟩ := ihr htr
      have hnr : ∀ b ∈ inorder (.node m ml mr), keyLt n.k b.k = true := fun b hb => by
        rcases (hi b).mp hb with rfl | ⟨hb, -⟩
        · exact hgt
        · exact (hr b hb).1
      have hmem : Inserted equalHash k v (.node n l r) (.node n l (.node m ml mr)) := fun b => by
        have hnk : n.k ≠ k := fun h => keyLt_irrefl _ (h ▸ hgt)
        have hlk : b ∈ inorder l → b.k ≠ k := fun hb h =>
          keyLt_irrefl _ (keyLt_trans hgt (h ▸ (hl b hb).1))
        have := hi b
        simp only [inorder_node] at this ⊢
        grind
      simp only [pmIns, hlt, he, Option.bind_eq_bind, Option.bind_some, pmP]
      rw [if_neg (by simp)]
      split_ifs with hp
      · have hmk : m.k = k := by
          rcases (hi m).mp (by simp) with h | ⟨h, -⟩
          · rw [h]
          · exact absurd (hr m h).2 (not_le.mpr hp)
        refine ⟨_, _, _, rfl, Treap.rotateLeft htl htm hn hl hnr hp.le fun b hb =>
          (hr b (hi.below htm hmk (.inl hb))).2, fun b => ?_⟩
        rw [← hmem b]
        simp
      · exact ⟨_, _, _, rfl, treap_node_iff.mpr ⟨hl, fun b hb => ⟨hnr b hb,
          (not_lt.mp hp).trans (htm.root_le hb)⟩, hn, htl, htm⟩, hmem⟩
    · -- neither is smaller: the key is there, and its priority is its hash
      obtain rfl : k = n.k := eq_of_not_keyLt hlt hgt
      refine ⟨⟨n.k, v, n.p⟩, l, r, by simp [pmIns, hlt], treap_node_iff.mpr
        ⟨hl, hr, hn, htl, htr⟩, fun b => ?_⟩
      have hlk : b ∈ inorder l → b.k ≠ n.k := fun hb h => hlt (h ▸ (hl b hb).1)
      have hrk : b ∈ inorder r → b.k ≠ n.k := fun hb h => hlt (h ▸ (hr b hb).1)
      simp only [inorder_node]
      grind

/-- **Lookup** finds the label of the key, if there is one. -/
lemma pmGet_eq_some_iff (ht : Treap keyLt equalHash t) :
    pmGet keyLt k t = some n ↔ n ∈ inorder t ∧ n.k = k := by
  induction t with
  | nil => simp [pmGet]
  | node a l r ihl ihr =>
    obtain ⟨hl, hr, -, htl, htr⟩ := treap_node_iff.mp ht
    have irr : ¬ keyLt k k = true := keyLt_irrefl k
    simp only [pmGet, inorder_node, List.mem_append, List.mem_cons]
    split_ifs with hlt hgt
    · rw [ihl htl]
      constructor
      · exact fun ⟨hn, hk⟩ => ⟨.inl hn, hk⟩
      · rintro ⟨hn | rfl | hn, rfl⟩
        · exact ⟨hn, rfl⟩
        · exact absurd hlt irr
        · exact absurd (keyLt_trans (hr n hn).1 hlt) (keyLt_irrefl _)
    · rw [ihr htr]
      constructor
      · exact fun ⟨hn, hk⟩ => ⟨.inr (.inr hn), hk⟩
      · rintro ⟨hn | rfl | hn, rfl⟩
        · exact absurd (keyLt_trans hgt (hl n hn).1) (keyLt_irrefl _)
        · exact absurd hgt irr
        · exact ⟨hn, rfl⟩
    · obtain rfl : k = a.k := eq_of_not_keyLt hlt hgt
      rw [Option.some.injEq]
      constructor
      · rintro rfl
        exact ⟨.inr (.inl rfl), rfl⟩
      · rintro ⟨hn | rfl | hn, hk⟩
        · exact absurd (hk ▸ (hl n hn).1) irr
        · rfl
        · exact absurd (hk ▸ (hr n hn).1) irr

/-- The labels after a deletion: the old ones at other keys. -/
def Deleted (k : K) (t t' : Pm K V) : Prop :=
  ∀ b, b ∈ inorder t' ↔ b ∈ inorder t ∧ b.k ≠ k

/-- **Deletion** succeeds, keeps the invariants and unbinds the key. -/
lemma pmDel_spec (k : K) (t : Pm K V) (ht : Treap keyLt equalHash t) :
    ∃ t', pmDel keyLt k t = some t' ∧ Treap keyLt equalHash t' ∧ Deleted k t t' := by
  fun_induction pmDel keyLt k t with
  | case1 => exact ⟨_, rfl, ht, by simp [Deleted]⟩
  | case2 n l r hlt ih =>
    obtain ⟨hl, hr, hn, htl, htr⟩ := treap_node_iff.mp ht
    obtain ⟨d, he, htd, hd⟩ := ih htl
    refine ⟨_, by rw [he]; rfl, treap_node_iff.mpr
      ⟨fun b hb => hl b ((hd b).mp hb).1, hr, hn, htd, htr⟩, fun b => ?_⟩
    have hnk : n.k ≠ k := fun h => keyLt_irrefl _ (h ▸ hlt)
    have hrk : b ∈ inorder r → b.k ≠ k := fun hb h =>
      keyLt_irrefl _ (keyLt_trans (h ▸ (hr b hb).1) hlt)
    simp only [inorder_node, List.mem_append, hd b]
    grind
  | case3 n l r hlt hgt ih =>
    obtain ⟨hl, hr, hn, htl, htr⟩ := treap_node_iff.mp ht
    obtain ⟨d, he, htd, hd⟩ := ih htr
    refine ⟨_, by rw [he]; rfl, treap_node_iff.mpr
      ⟨hl, fun b hb => hr b ((hd b).mp hb).1, hn, htl, htd⟩, fun b => ?_⟩
    have hnk : n.k ≠ k := fun h => keyLt_irrefl _ (h ▸ hgt)
    have hlk : b ∈ inorder l → b.k ≠ k := fun hb h =>
      keyLt_irrefl _ (keyLt_trans hgt (h ▸ (hl b hb).1))
    simp only [inorder_node, List.mem_append, List.mem_cons, hd b]
    grind
  | case4 n hlt hgt r =>
    obtain ⟨-, hr, -, -, htr⟩ := treap_node_iff.mp ht
    obtain rfl : k = n.k := eq_of_not_keyLt hlt hgt
    have hrk : ∀ b ∈ inorder r, b.k ≠ n.k := fun b hb h => hlt (h ▸ (hr b hb).1)
    refine ⟨_, rfl, htr, fun b => ?_⟩
    simp only [inorder_node, inorder_nil]
    grind
  | case5 n hlt hgt l =>
    obtain ⟨hl, -, -, htl, -⟩ := treap_node_iff.mp ht
    obtain rfl : k = n.k := eq_of_not_keyLt hlt hgt
    have hlk : ∀ b ∈ inorder l, b.k ≠ n.k := fun b hb h => hlt (h ▸ (hl b hb).1)
    refine ⟨_, rfl, htl, fun b => ?_⟩
    simp only [inorder_node, inorder_nil]
    grind
  | case6 n hlt hgt a al ar b bl br hp ih =>
    -- `a` becomes the root; what the deletion leaves under it was right of `a` and not below it
    obtain ⟨hl, hr, hn, htl, htr⟩ := treap_node_iff.mp ht
    obtain ⟨hal, har, ha, htal, htar⟩ := treap_node_iff.mp htl
    obtain rfl : k = n.k := eq_of_not_keyLt hlt hgt
    obtain ⟨d, he, htd, hd⟩ := ih (treap_node_iff.mpr
      ⟨fun x hx => hl x (by simp [hx]), hr, hn, htar, htr⟩)
    refine ⟨_, by rw [he]; rfl, treap_node_iff.mpr ⟨hal, fun x hx => ?_, ha, htal, htd⟩, fun x => ?_⟩
    · obtain ⟨hx, hxk⟩ := (hd x).mp hx
      simp only [inorder_node (a := n), List.mem_append, List.mem_cons] at hx
      rcases hx with hx | rfl | hx
      · exact har x hx
      · exact absurd rfl hxk
      · exact ⟨keyLt_trans (hl a (by simp)).1 (hr x hx).1, hp.le.trans (htr.root_le hx)⟩
    · have hlk : x ∈ inorder (.node a al ar) → x.k ≠ n.k := fun hx h => hlt (h ▸ (hl x hx).1)
      simp only [inorder_node, List.mem_append, List.mem_cons,
        hd x] at hlk ⊢
      grind
  | case7 n hlt hgt a al ar b bl br hp ih =>
    obtain ⟨hl, hr, hn, htl, htr⟩ := treap_node_iff.mp ht
    obtain ⟨hbl, hbr, hb, htbl, htbr⟩ := treap_node_iff.mp htr
    obtain rfl : k = n.k := eq_of_not_keyLt hlt hgt
    obtain ⟨d, he, htd, hd⟩ := ih (treap_node_iff.mpr
      ⟨hl, fun x hx => hr x (by simp [hx]), hn, htl, htbl⟩)
    refine ⟨_, by rw [he]; rfl, treap_node_iff.mpr ⟨fun x hx => ?_, hbr, hb, htd, htbr⟩, fun x => ?_⟩
    · obtain ⟨hx, hxk⟩ := (hd x).mp hx
      simp only [inorder_node (a := n), List.mem_append, List.mem_cons] at hx
      rcases hx with hx | rfl | hx
      · exact ⟨keyLt_trans (hl x hx).1 (hr b (by simp)).1, (not_lt.mp hp).trans (htl.root_le hx)⟩
      · exact absurd rfl hxk
      · exact hbl x hx
    · have hrk : x ∈ inorder (.node b bl br) → x.k ≠ n.k := fun hx h => hlt (h ▸ (hr x hx).1)
      simp only [inorder_node, List.mem_append,
        hd x] at hrk ⊢
      grind

end Invariants

/-! ## Versions and the maps they stand for -/

section Versions

variable {K V : Type}

lemma pmFold_eq {A : Type} (f : K → V → A → A) (t : Pm K V) (acc : A) :
    pmFold f t acc = (inorder t).foldl (fun acc n => f n.k n.v acc) acc := by
  induction t generalizing acc with
  | nil => rfl
  | node n l r ihl ihr => simp [pmFold, ihl, ihr]

/-- A step of a history: an update of the version at a position. -/
inductive PmapOp (K V : Type) where
  | set (version : ℕ) (k : K) (v : V)
  | del (version : ℕ) (k : K)

/-- One update: the new version is added to those there are. -/
def pmapStep (equalHash : K → ℤ) (vs : List (Pmap K V)) : PmapOp K V → Option (List (Pmap K V))
  | .set i k v =>
    match vs[i]? with
    | some m => (pmapSet equalHash m k v).map fun m' => vs ++ [m']
    | none => some vs
  | .del i k =>
    match vs[i]? with
    | some m => (pmapDel m k).map fun m' => vs ++ [m']
    | none => some vs

/-- **The versions** a history builds, starting from given ones. -/
def pmapVersions (equalHash : K → ℤ) (vs : List (Pmap K V)) (ops : List (PmapOp K V)) :
    Option (List (Pmap K V)) :=
  ops.foldlM (pmapStep equalHash) vs

open Classical in
/-- The same update on finite maps, given as functions. -/
noncomputable def mapStep (ms : List (K → Option V)) : PmapOp K V → List (K → Option V)
  | .set i k v =>
    match ms[i]? with
    | some m => ms ++ [Function.update m k (some v)]
    | none => ms
  | .del i k =>
    match ms[i]? with
    | some m => ms ++ [Function.update m k none]
    | none => ms

/-- The maps a history builds. -/
noncomputable def mapVersions (ms : List (K → Option V)) (ops : List (PmapOp K V)) :
    List (K → Option V) :=
  ops.foldl mapStep ms

/-- **A version agrees with a map**: it shows the bindings of the map, each once and in ascending
order of the keys, and its tree satisfies the invariants. -/
structure Agrees (keyLt : K → K → Bool) (equalHash : K → ℤ) (m : Pmap K V) (f : K → Option V) :
    Prop where
  order : m.keyLt = keyLt
  ref : ∀ k default, pmapRef m k default = (f k).getD default
  fold : ∃ bindings : List (K × V), (bindings.Pairwise fun a b => keyLt a.1 b.1 = true) ∧
    (∀ k v, (k, v) ∈ bindings ↔ f k = some v) ∧
    ∀ (A : Type) (g : K → V → A → A) (acc : A),
      pmapFold m g acc = bindings.foldl (fun acc b => g b.1 b.2 acc) acc
  size : {k | f k ≠ none}.Finite ∧ pmapSize m = {k | f k ≠ none}.ncard
  tree : Treap keyLt equalHash m.root

/-- The labels of a version are the bindings of a map. -/
structure Stands (keyLt : K → K → Bool) (equalHash : K → ℤ) (m : Pmap K V) (f : K → Option V) :
    Prop where
  order : m.keyLt = keyLt
  tree : Treap keyLt equalHash m.root
  bindings : ∀ k v, f k = some v ↔ ⟨k, v, equalHash k⟩ ∈ inorder m.root

variable {keyLt : K → K → Bool} {equalHash : K → ℤ} {m : Pmap K V} {f : K → Option V}

lemma Stands.mem_iff (h : Stands keyLt equalHash m f) (n : PmNode K V) :
    n ∈ inorder m.root ↔ f n.k = some n.v ∧ n.p = equalHash n.k := by
  constructor
  · intro hn
    have hp := h.tree.hashed n hn
    exact ⟨(h.bindings n.k n.v).mpr (hp ▸ hn), hp⟩
  · rintro ⟨hf, hp⟩
    have hn := (h.bindings n.k n.v).mp hf
    rwa [← hp] at hn

lemma stands_empty : Stands keyLt equalHash (pmap keyLt : Pmap K V) fun _ => none :=
  ⟨rfl, treap_nil, by simp [pmap]⟩

variable [IsStrictTotalOrder K fun a b => keyLt a b = true]

section

variable (h : Stands keyLt equalHash m f)

include h

open Classical in
lemma Stands.set (k : K) (v : V) : ∃ m', pmapSet equalHash m k v = some m' ∧
      Stands keyLt equalHash m' (Function.update f k (some v)) := by
  obtain ⟨n, l, r, he, ht, hi⟩ := pmIns_spec k v h.tree
  refine ⟨⟨keyLt, .node n l r⟩, by simp only [pmapSet, h.order, he, Option.map_some], rfl, ht,
    fun j w => ?_⟩
  rw [hi, h.mem_iff, Function.update_apply]
  split_ifs with hj
  · subst hj
    simp [eq_comm]
  · simp [hj]

open Classical in
lemma Stands.del (k : K) :
    ∃ m', pmapDel m k = some m' ∧ Stands keyLt equalHash m' (Function.update f k none) := by
  obtain ⟨t, he, ht, hd⟩ := pmDel_spec k m.root h.tree
  refine ⟨⟨keyLt, t⟩, by simp only [pmapDel, h.order, he, Option.map_some], rfl, ht,
    fun j w => ?_⟩
  rw [hd, h.mem_iff, Function.update_apply]
  split_ifs with hj <;> simp [hj]

lemma Stands.fold : ∃ bindings : List (K × V), (bindings.Pairwise fun a b => keyLt a.1 b.1 = true) ∧
      (∀ k v, (k, v) ∈ bindings ↔ f k = some v) ∧
      ∀ (A : Type) (g : K → V → A → A) (acc : A),
        pmapFold m g acc = bindings.foldl (fun acc b => g b.1 b.2 acc) acc := by
  refine ⟨(inorder m.root).map fun n => (n.k, n.v), ?_, fun k v => ?_, fun A g acc => ?_⟩
  · have hordered := ordered_iff.mp h.tree.ordered
    exact List.pairwise_map.mpr hordered
  · simp only [List.mem_map, h.mem_iff, Prod.mk.injEq]
    constructor
    · rintro ⟨n, ⟨hf, -⟩, rfl, rfl⟩
      exact hf
    · exact fun hf => ⟨⟨k, v, equalHash k⟩, ⟨hf, rfl⟩, rfl, rfl⟩
  · rw [pmapFold, pmFold_eq, List.foldl_map]

lemma Stands.size : {k | f k ≠ none}.Finite ∧ pmapSize m = {k | f k ≠ none}.ncard := by
  obtain ⟨bindings, hsorted, hmem, hfold⟩ := h.fold
  have hnodup : (bindings.map Prod.fst).Nodup :=
    List.pairwise_map.mpr (hsorted.imp fun {a b} hab (he : a.1 = b.1) => keyLt_irrefl _ (he ▸ hab))
  have hset : {k | f k ≠ none} = {k | k ∈ bindings.map Prod.fst} := by
    simp [Option.ne_none_iff_exists', hmem]
  have hcount : ∀ (l : List (K × V)) (a : ℕ), l.foldl (fun acc _ => acc + 1) a = a + l.length := by
    intro l
    induction l with
    | nil => simp
    | cons b l ih => intro a; simp; omega
  rw [hset]
  refine ⟨List.finite_toSet _, ?_⟩
  classical
  rw [pmapSize, hfold, hcount, ← List.length_map Prod.fst,
    ← List.toFinset_card_of_nodup hnodup, ← Set.ncard_coe_finset]
  simp

lemma Stands.agrees : Agrees keyLt equalHash m f := by
  refine ⟨h.order, fun k default => ?_, h.fold, h.size, h.tree⟩
  have hget : ∀ n, pmGet keyLt k m.root = some n ↔ (f n.k = some n.v ∧ n.p = equalHash n.k) ∧
      n.k = k := fun n => by rw [pmGet_eq_some_iff h.tree, h.mem_iff]
  rw [pmapRef, h.order]
  split
  · next n hn =>
    obtain ⟨⟨hf, -⟩, rfl⟩ := (hget n).mp hn
    rw [hf, Option.getD_some]
  · next hn =>
    cases hf : f k with
    | none => rfl
    | some v =>
      have := (hget ⟨k, v, equalHash k⟩).mpr ⟨⟨hf, rfl⟩, rfl⟩
      rw [hn] at this
      cases this

end

lemma stands_step {vs : List (Pmap K V)} {ms : List (K → Option V)}
    (h : List.Forall₂ (Stands keyLt equalHash) vs ms) (op : PmapOp K V) :
    ∃ vs', pmapStep equalHash vs op = some vs' ∧ vs <+: vs' ∧
      List.Forall₂ (Stands keyLt equalHash) vs' (mapStep ms op) := by
  have hat : ∀ i : ℕ, vs[i]? = none ∧ ms[i]? = none ∨
      ∃ m f, vs[i]? = some m ∧ ms[i]? = some f ∧ Stands keyLt equalHash m f := by
    intro i
    rcases Nat.lt_or_ge i vs.length with hi | hi
    · have hi' := h.length_eq ▸ hi
      exact .inr ⟨_, _, List.getElem?_eq_getElem hi, List.getElem?_eq_getElem hi', h.get hi hi'⟩
    · exact .inl ⟨List.getElem?_eq_none hi, List.getElem?_eq_none (h.length_eq ▸ hi)⟩
  cases op with
  | set i k v =>
    rcases hat i with ⟨hm, hf⟩ | ⟨m, f, hm, hf, hs⟩
    · exact ⟨vs, by simp [pmapStep, hm], List.prefix_rfl, by simpa [mapStep, hf]⟩
    · obtain ⟨m', he, hs⟩ := hs.set k v
      refine ⟨vs ++ [m'], by simp [pmapStep, hm, he], List.prefix_append _ _, ?_⟩
      simp only [mapStep, hf]
      exact List.rel_append h (.cons hs .nil)
  | del i k =>
    rcases hat i with ⟨hm, hf⟩ | ⟨m, f, hm, hf, hs⟩
    · exact ⟨vs, by simp [pmapStep, hm], List.prefix_rfl, by simpa [mapStep, hf]⟩
    · obtain ⟨m', he, hs⟩ := hs.del k
      refine ⟨vs ++ [m'], by simp [pmapStep, hm, he], List.prefix_append _ _, ?_⟩
      simp only [mapStep, hf]
      exact List.rel_append h (.cons hs .nil)

/-- **A whole history** keeps the correspondence, and the versions it starts from. -/
lemma stands_run (ops : List (PmapOp K V)) {vs : List (Pmap K V)} {ms : List (K → Option V)}
    (h : List.Forall₂ (Stands keyLt equalHash) vs ms) :
    ∃ vs', pmapVersions equalHash vs ops = some vs' ∧ vs <+: vs' ∧
      List.Forall₂ (Stands keyLt equalHash) vs' (mapVersions ms ops) := by
  induction ops generalizing vs ms with
  | nil => exact ⟨vs, rfl, List.prefix_rfl, h⟩
  | cons op ops ih =>
    obtain ⟨vs1, he, hp, hs⟩ := stands_step h op
    obtain ⟨vs2, he2, hp2, hs2⟩ := ih hs
    refine ⟨vs2, ?_, hp.trans hp2, hs2⟩
    simp only [pmapVersions, List.foldlM_cons, he]
    exact he2

/-- **The persistent map refines finite maps.** For every strict total order on the keys and every
history from the empty map, no call raises, every version agrees with the map it stands for, and
whatever is built afterwards leaves the versions as they are. -/
theorem pmap_refines_maps (keyLt : K → K → Bool) [IsStrictTotalOrder K fun a b => keyLt a b = true]
    (equalHash : K → ℤ) (ops : List (PmapOp K V)) :
    ∃ vs, pmapVersions equalHash [pmap keyLt] ops = some vs ∧
      List.Forall₂ (Agrees keyLt equalHash) vs (mapVersions [fun _ => none] ops) ∧
      ∀ more, ∃ vs', pmapVersions equalHash [pmap keyLt] (ops ++ more) = some vs' ∧ vs <+: vs' := by
  have hempty : Stands keyLt equalHash (pmap keyLt : Pmap K V) fun _ => none := stands_empty
  obtain ⟨vs, he, -, hs⟩ := stands_run ops (.cons hempty .nil)
  refine ⟨vs, he, hs.imp fun _ _ h => h.agrees, fun more => ?_⟩
  obtain ⟨vs', he', hp', -⟩ := stands_run more hs
  refine ⟨vs', ?_, hp'⟩
  simp only [pmapVersions, List.foldlM_append, Option.bind_eq_bind] at he he' ⊢
  rw [he, Option.bind_some, he']

/-- Natural numbers in their order, with two versions made from one. -/
theorem pmap_refines_maps_nat :
    IsStrictTotalOrder ℕ (fun a b => decide (a < b) = true) ∧
    ∃ vs, pmapVersions (fun k : ℕ => (7 * k % 5 : ℤ)) [pmap fun a b => decide (a < b)]
        [.set 0 1 true, .set 1 2 false, .del 1 1] = some vs ∧
      List.Forall₂ (Agrees (fun a b => decide (a < b)) fun k : ℕ => (7 * k % 5 : ℤ)) vs
        (mapVersions [fun _ => none] [.set 0 1 true, .set 1 2 false, .del 1 1]) ∧
      ∀ more, ∃ vs', pmapVersions (fun k : ℕ => (7 * k % 5 : ℤ)) [pmap fun a b => decide (a < b)]
        ([.set 0 1 true, .set 1 2 false, .del 1 1] ++ more) = some vs' ∧ vs <+: vs' := by
  have h : IsStrictTotalOrder ℕ fun a b => decide (a < b) = true := by
    simp only [decide_eq_true_eq]
    infer_instance
  exact ⟨h, pmap_refines_maps _ _ _⟩

end Versions

end CrabScheme.Consensus
