import CrabScheme.Core.Number

/-!
# Data trees of the expander

The reader's `Datum`, without source spans. Within one session an interned symbol and its name
determine each other, so a datum carries the names themselves. The expander takes lists apart into
a spine and what ends it, and puts them together again; an induction over data follows the same
view.

## Main results

* `Datum.rebuild_chain` — a datum is what its chain rebuilds.
-/

namespace CrabScheme.Expand

/-- The name of an interned symbol. -/
abbrev Name := String

/-- **Data**, as the reader delivers them. -/
inductive Datum
  | boolean (b : Bool)
  | number (n : Number)
  | character (c : Char)
  | string (s : String)
  | symbol (s : Name)
  | null
  | pair (car cdr : Datum)
  | vector (items : List Datum)
  | byteVector (bytes : List UInt8)

/-! ## Chains of pairs -/

/-- A spine put in front of a tail. -/
def rebuildListWithTail (items : List Datum) (tail : Datum) : Datum := items.foldr .pair tail

/-- A proper list. -/
def rebuildList (items : List Datum) : Datum := rebuildListWithTail items .null

@[simp] lemma rebuildListWithTail_nil (tail : Datum) : rebuildListWithTail [] tail = tail := rfl

@[simp] lemma rebuildListWithTail_cons (x : Datum) (items : List Datum) (tail : Datum) :
    rebuildListWithTail (x :: items) tail = .pair x (rebuildListWithTail items tail) := rfl

lemma rebuildListWithTail_append (xs ys : List Datum) (tail : Datum) :
    rebuildListWithTail (xs ++ ys) tail
      = rebuildListWithTail xs (rebuildListWithTail ys tail) := by
  simp [rebuildListWithTail]

namespace Datum

/-- Whether a datum is a pair. -/
def isPair : Datum → Bool
  | pair _ _ => true
  | _ => false

/-- The cars along a chain of pairs. -/
def spine : Datum → List Datum
  | pair car cdr => car :: spine cdr
  | _ => []

/-- What ends a chain of pairs: the cdr of its last pair. -/
def lastCdr : Datum → Datum
  | pair _ cdr => lastCdr cdr
  | d => d

/-- `collect_pair_chain`: the spine and the tail of a pair. -/
def collectPairChain (d : Datum) : Option (List Datum × Datum) :=
  if d.isPair then some (d.spine, d.lastCdr) else none

/-- `collect_proper_list_strict`: the items of a proper list. -/
def collectProperListStrict : Datum → Option (List Datum)
  | null => some []
  | pair car cdr => (collectProperListStrict cdr).map (car :: ·)
  | _ => none

lemma rebuild_chain : ∀ d : Datum, rebuildListWithTail d.spine d.lastCdr = d
  | pair a d => by rw [spine, lastCdr, rebuildListWithTail_cons, rebuild_chain d]
  | boolean _ | number _ | character _ | string _ | symbol _ | null | vector _ | byteVector _ =>
    rfl

lemma spine_of_not_isPair {d : Datum} (h : d.isPair = false) : d.spine = [] := by
  cases d <;> simp_all [isPair, spine]

lemma lastCdr_of_not_isPair {d : Datum} (h : d.isPair = false) : d.lastCdr = d := by
  cases d <;> simp_all [isPair, lastCdr]

lemma spine_rebuild (items : List Datum) {tail : Datum} (h : tail.isPair = false) :
    (rebuildListWithTail items tail).spine = items := by
  induction items with
  | nil => exact spine_of_not_isPair h
  | cons x items ih => rw [rebuildListWithTail_cons, spine, ih]

lemma lastCdr_rebuild (items : List Datum) {tail : Datum} (h : tail.isPair = false) :
    (rebuildListWithTail items tail).lastCdr = tail := by
  induction items with
  | nil => exact lastCdr_of_not_isPair h
  | cons x items ih => rw [rebuildListWithTail_cons, lastCdr, ih]

@[simp] lemma collectProperListStrict_rebuildList (items : List Datum) :
    (rebuildList items).collectProperListStrict = some items := by
  unfold rebuildList
  induction items with
  | nil => rfl
  | cons x items ih => rw [rebuildListWithTail_cons, collectProperListStrict, ih]; rfl

lemma eq_rebuildList_of_collect {d : Datum} {items : List Datum}
    (h : d.collectProperListStrict = some items) : d = rebuildList items := by
  fun_induction collectProperListStrict d generalizing items with
  | case1 => cases h; rfl
  | case2 a d ih =>
    obtain ⟨rest, hrest, rfl⟩ := Option.map_eq_some_iff.mp h
    rw [ih hrest]
    rfl
  | case3 d _ _ => cases h

section Induction

variable {P : Datum → Prop} (atom : ∀ d : Datum, d.isPair = false → P d)
  (chain : ∀ (items : List Datum) (tail : Datum), items ≠ [] → tail.isPair = false →
    (∀ x ∈ items, P x) → P tail → P (rebuildListWithTail items tail))
include atom chain

end Induction

end Datum

end CrabScheme.Expand
