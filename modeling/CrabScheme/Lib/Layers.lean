import Mathlib

/-!
# Layered environments

A scoped environment is a chain of *layers*. Each layer is a mutable finite map from names to
values; the chain itself never changes once it is built, so a chain is a list of layer
references, innermost first, and only the maps live in a mutable store. A layer may be marked
as a *boundary*: new global bindings made from inside the chain stop there.

## Main results

* `Layers.Store.get_eq_of_agree` — lookup only depends on the layers of the chain.
* `Layers.Store.assign_eq_define` — an assignment is a definition in one layer, its
  `Layers.Store.assignTarget`.
-/

namespace Layers

/-- The store of all layers: layer `i` maps names to values, and `size` layers exist. -/
structure Store (κ ν : Type) where
  size : ℕ
  read : ℕ → κ → Option ν

/-- A reference to a layer, with its boundary mark. -/
structure Ref where
  id : ℕ
  boundary : Bool
deriving DecidableEq, Repr

/-- A chain of layers, innermost first. -/
abbrev Chain := List Ref

variable {κ ν : Type}

/-- The layer a global definition made inside `c` goes to: the innermost boundary, or the
outermost layer when no layer is marked. -/
def defineRoot : Chain → Option Ref
  | [] => none
  | [r] => some r
  | r :: c => if r.boundary then some r else defineRoot c

namespace Store

/-- The store without layers. -/
def empty : Store κ ν := ⟨0, fun _ _ => none⟩

/-- Make one new layer without bindings; its index is the old `size`. -/
def alloc (s : Store κ ν) : Store κ ν :=
  ⟨s.size + 1, fun i => if i = s.size then fun _ => none else s.read i⟩

variable [DecidableEq κ]

/-- Bind `x` to `v` in layer `i`, replacing an earlier binding. -/
def define (s : Store κ ν) (i : ℕ) (x : κ) (v : ν) : Store κ ν :=
  ⟨s.size, fun j y => if j = i ∧ y = x then some v else s.read j y⟩

/-- Bind a list of names in order in layer `i`. -/
def defineAll (s : Store κ ν) (i : ℕ) : List (κ × ν) → Store κ ν
  | [] => s
  | (x, v) :: bs => (s.define i x v).defineAll i bs

omit [DecidableEq κ] in
/-- The innermost layer of `c` that binds `x`. -/
def holder (s : Store κ ν) (c : Chain) (x : κ) : Option Ref :=
  c.find? fun r => (s.read r.id x).isSome

omit [DecidableEq κ] in
/-- Lookup of `x` along `c`. -/
def get (s : Store κ ν) : Chain → κ → Option ν
  | [], _ => none
  | r :: c, x =>
    match s.read r.id x with
    | some v => some v
    | none => s.get c x

/-- Assign to the innermost binding of `x`, if there is one. -/
def setExisting (s : Store κ ν) : Chain → κ → ν → Option (Store κ ν)
  | [], _, _ => none
  | r :: c, x, v =>
    match s.read r.id x with
    | some _ => some (s.define r.id x v)
    | none => s.setExisting c x v

/-- Bind `x` in the layer global definitions made inside `c` go to. -/
def defineGlobal (s : Store κ ν) (c : Chain) (x : κ) (v : ν) : Store κ ν :=
  match defineRoot c with
  | some r => s.define r.id x v
  | none => s

/-- Assign to the innermost binding of `x`, or bind it globally when there is none. -/
def assign (s : Store κ ν) (c : Chain) (x : κ) (v : ν) : Store κ ν :=
  match s.setExisting c x v with
  | some s' => s'
  | none => s.defineGlobal c x v

omit [DecidableEq κ] in
/-- The layer an assignment to `x` made inside `c` writes. -/
def assignTarget (s : Store κ ν) (c : Chain) (x : κ) : Option Ref :=
  (s.holder c x).or (defineRoot c)

/-! ### Reading after writing -/

omit [DecidableEq κ] in
@[simp] lemma size_alloc (s : Store κ ν) : s.alloc.size = s.size + 1 := rfl

variable {i : ℕ} {s t : Store κ ν}

omit [DecidableEq κ] in
lemma read_alloc_of_ne (s : Store κ ν) (h : i ≠ s.size) (x : κ) :
    s.alloc.read i x = s.read i x := by
  simp [alloc, h]

@[simp] lemma size_define (s : Store κ ν) (i : ℕ) (x : κ) (v : ν) :
    (s.define i x v).size = s.size := rfl

@[simp] lemma read_define_self (s : Store κ ν) (i : ℕ) (x : κ) (v : ν) :
    (s.define i x v).read i x = some v := by
  simp [define]

lemma read_define_of_layer_ne (s : Store κ ν) {j : ℕ} (h : j ≠ i) (x y : κ) (v : ν) :
    (s.define i x v).read j y = s.read j y := by
  simp [define, h]

lemma read_define_of_name_ne (s : Store κ ν) (i j : ℕ) {x y : κ} (h : y ≠ x) (v : ν) :
    (s.define i x v).read j y = s.read j y := by
  simp [define, h]

/-! ### Lookup along a chain -/

omit [DecidableEq κ] in
lemma get_eq_of_agree {c : Chain} {x : κ} (h : ∀ r ∈ c, s.read r.id x = t.read r.id x)
    : s.get c x = t.get c x := by
  induction c with
  | nil => rfl
  | cons r c ih =>
    simp only [get, h r (by simp)]
    cases t.read r.id x with
    | some v => rfl
    | none => exact ih fun r' hr' => h r' (by simp [hr'])

omit [DecidableEq κ] in
/-- Whether what layer `t` binds `x` to is what a lookup along `c` finds: `t` is on the chain and
no layer inside it binds `x`. -/
def exposes (s : Store κ ν) : Chain → ℕ → κ → Bool
  | [], _, _ => false
  | r :: c, t, x => r.id == t || ((s.read r.id x).isNone && s.exposes c t x)

/-- **Lookup after a definition**: the new value is seen exactly along the chains that expose
the layer written. -/
lemma get_define (s : Store κ ν) (t : ℕ) (x : κ) (v : ν) (c : Chain) (y : κ) :
    (s.define t x v).get c y = if y = x ∧ s.exposes c t x = true then some v else s.get c y := by
  induction c with
  | nil => simp [get, exposes]
  | cons r c ih =>
    by_cases hy : y = x
    · subst hy
      by_cases hr : r.id = t
      · simp [get, exposes, hr]
      · cases h : s.read r.id y <;>
          simp_all [get, exposes, read_define_of_layer_ne s hr]
    · simp only [get, read_define_of_name_ne s t r.id hy, ih, hy, false_and, if_false]

/-! ### Assignment -/

lemma setExisting_eq (s : Store κ ν) (c : Chain) (x : κ) (v : ν) :
    s.setExisting c x v = (s.holder c x).map fun r => s.define r.id x v := by
  induction c with
  | nil => rfl
  | cons r c ih =>
    cases h : s.read r.id x with
    | some w => simp [setExisting, holder, h]
    | none => simpa [setExisting, holder, h] using ih

/-- **An assignment is a definition in its target layer.** -/
lemma assign_eq_define (s : Store κ ν) (c : Chain) (x : κ) (v : ν) :
    s.assign c x v =
      match s.assignTarget c x with
      | some r => s.define r.id x v
      | none => s := by
  unfold assign assignTarget defineGlobal
  rw [setExisting_eq]
  cases s.holder c x <;> simp

/-! ### Growing stores -/

omit [DecidableEq κ] in
/-- `s.Extends t`: the store `t` has every layer of `s`, with the same bindings. -/
def Extends (s t : Store κ ν) : Prop :=
  s.size ≤ t.size ∧ ∀ i < s.size, ∀ x, t.read i x = s.read i x

omit [DecidableEq κ] in
lemma Extends.refl (s : Store κ ν) : s.Extends s :=
  ⟨Nat.le_refl _, fun _ _ _ => rfl⟩

omit [DecidableEq κ] in
lemma extends_alloc (s : Store κ ν) : s.Extends s.alloc :=
  ⟨Nat.le_succ _, fun _ hi _ => read_alloc_of_ne s (Nat.ne_of_lt hi) _⟩

lemma Extends.define (h : s.Extends t) (hi : s.size ≤ i) (x : κ) (v : ν)
    : s.Extends (t.define i x v) := by
  refine ⟨h.1, fun j hj y => ?_⟩
  rw [read_define_of_layer_ne t (by omega), h.2 j hj]

lemma Extends.defineAll (h : s.Extends t) (hi : s.size ≤ i) (bs : List (κ × ν))
    : s.Extends (t.defineAll i bs) := by
  induction bs generalizing t with
  | nil => exact h
  | cons b bs ih => exact ih (h.define hi b.1 b.2)

omit [DecidableEq κ] in
lemma Extends.get_eq (h : s.Extends t) {c : Chain} (hc : ∀ r ∈ c, r.id < s.size) (x : κ)
    : t.get c x = s.get c x :=
  get_eq_of_agree fun r hr => h.2 r.id (hc r hr) x

end Store

end Layers
