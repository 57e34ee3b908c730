import Mathlib

/-!
# Sorting

`list-sort`, `vector-sort` and `vector-sort!` call a comparator of the user. The walker sorts by
insertion, the VM by merging runs of doubled length from the bottom up. A comparator has a state of
its own and may raise; it does not operate on the vector that is sorted.

## Main results

* `vectorSortBang_perm_iff` — which tier keeps the elements of the vector when the comparator
  raises.
-/

namespace CrabScheme.Data.Sorting

/-- Where a builtin runs. -/
inductive Tier
  | walker
  | vm
deriving DecidableEq

variable {α σ : Type}

/-- A comparator, as a procedure with a state; `none` is a condition that is raised. -/
abbrev Comparator (σ α : Type) := α → α → StateT σ Option Bool

section Builtins

variable (cmp : Comparator σ α)

/-- The inner loop of the walker: an item sinks into the items before it, the nearest first. -/
def sink (x : α) : List α → StateT σ Option (List α)
  | [] => return [x]
  | y :: before => do
    if ← cmp x y then return y :: (← sink x before) else return x :: y :: before

/-- `sort_with_predicate` of the walker. -/
def insertionSort (items : List α) : StateT σ Option (List α) := do
  return (← items.foldlM (fun before x => sink cmp x before) []).reverse

/-- The merge of two neighbouring runs; the left item goes first unless the right one is less. -/
def mergeRuns : List α → List α → StateT σ Option (List α)
  | [], right => return right
  | left, [] => return left
  | a :: left, b :: right => do
    if ← cmp b a then return b :: (← mergeRuns (a :: left) right)
    else return a :: (← mergeRuns left (b :: right))
termination_by left right => left.length + right.length

/-- One pass over the runs of a length, two by two; after the last run there is nothing to do. -/
def mergePass (size : ℕ) : ℕ → List α → StateT σ Option (List α)
  | 0, items => return items
  | n + 1, items => do
    let run ← mergeRuns cmp (items.take size) ((items.drop size).take size)
    return run ++ (← mergePass size n (items.drop (2 * size)))

/-- The passes, with runs of doubled length, until there is one run. -/
def mergeLoop : ℕ → ℕ → List α → StateT σ Option (List α)
  | 0, _, items => return items
  | n + 1, size, items => do
    if size < items.length then mergeLoop n (2 * size) (← mergePass cmp size items.length items)
    else return items

/-- `sort_with_predicate`. -/
def sortWithPredicate (items : List α) : Tier → StateT σ Option (List α)
  | .walker => insertionSort cmp items
  | .vm => mergeLoop cmp items.length 1 items

/-- `list-sort`, on the items of a proper list. -/
def listSort (tier : Tier) (items : List α) : StateT σ Option (List α) :=
  sortWithPredicate cmp items tier

/-- `vector-sort`: the items are copied. -/
def vectorSort (tier : Tier) (vec : List α) : StateT σ Option (List α) :=
  sortWithPredicate cmp vec tier

/-- `vector-sort!`: whether it returns, and the vector afterwards. The walker takes the items out of
the vector while it sorts them, the VM sorts a copy. -/
def vectorSortBang (tier : Tier) (vec : List α) (s : σ) : Bool × List α :=
  let taken := match tier with
    | .walker => []
    | .vm => vec
  match sortWithPredicate cmp vec tier s with
  | some (items, _) => (true, items)
  | none => (false, taken)

end Builtins

/-! ### Raising comparators -/

/-- **When `vector-sort!` does not return, the vector has its elements just in the VM.** -/
theorem vectorSortBang_perm_iff (cmp : Comparator σ α) (tier : Tier) (vec : List α) (s : σ)
    (hraise : (vectorSortBang cmp tier vec s).1 = false) :
    (vectorSortBang cmp tier vec s).2.Perm vec ↔ tier = .vm := by
  unfold vectorSortBang at hraise ⊢
  cases hsort : sortWithPredicate cmp vec tier s with
  | some r => simp [hsort] at hraise
  | none =>
    cases tier with
    | vm => simp
    | walker =>
      refine iff_of_false (fun hperm => ?_) (by decide)
      -- nothing is compared in an empty vector
      obtain rfl := hperm.nil_eq
      cases hsort

/-- A comparator that raises. -/
def raising : Comparator Unit ℕ := fun _ _ _ => none

/-- **The walker loses the elements.** -/
theorem vectorSortBang_loses :
    vectorSortBang raising .walker [1, 2] () = (false, []) ∧ ¬([] : List ℕ).Perm [1, 2] := by
  decide

/-- The VM keeps them. -/
theorem vectorSortBang_perm_iff_vm :
    (vectorSortBang raising .vm [1, 2] ()).1 = false ∧
      (vectorSortBang raising .vm [1, 2] ()).2.Perm [1, 2] := by
  have hraise : (vectorSortBang raising .vm [1, 2] ()).1 = false := by
    simp [vectorSortBang, sortWithPredicate, mergeLoop, mergePass, mergeRuns, raising, bind,
      StateT.bind]
  exact ⟨hraise, (vectorSortBang_perm_iff raising .vm [1, 2] () hraise).2 rfl⟩

end CrabScheme.Data.Sorting
