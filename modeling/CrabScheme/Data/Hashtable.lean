import CrabScheme.Data.Same
import CrabScheme.Gc.Mutation
import CrabScheme.Lib.Assoc

/-!
# Hashtables

A hashtable has a list of entries and an index from hashes to positions in it. The builtins of the
tree-walker search through the index and keep it; the shims of the VM go through all entries and
leave the index alone. A value that closes a cycle is demoted: the entry then reads as unspecified,
and a weak reference beside the table, a tombstone, has the value.

The file runs calls of both tiers on any number of tables and compares them with maps from keys to
values. The comparison goes through as long as the builtins of the walker meet an index that
mirrors the entries.

## Main results

* `Refines.runOp` — a call on one table.
* `tables_refine_maps` — runs.
-/

namespace CrabScheme.Data

/-- `Value::is_truthy`. -/
def Value.isTruthy (v : Value) : Bool := v ≠ .boolean false

/-- What the comparison of keys depends on: floating-point arithmetic, the objects that keys refer
to, the hasher, and how deep the recursion of `equal?` can go. -/
structure Setting where
  fp : FlonumOps
  store : Store
  digest : Digest
  depth : ℕ

/-- `CustomHashFns`: the procedures of the user, as functions. -/
structure CustomHashFns where
  hash : Value → Value
  equiv : Value → Value → Value

/-- `HtEqKind`. -/
inductive HtEqKind
  | eq
  | eqv
  | equal
  | custom (fns : CustomHashFns)

/-- `Hashtable`, with the tombstones of its values. -/
structure Hashtable where
  kind : HtEqKind
  items : List (Value × Value)
  index : UInt64 → List ℕ
  tombstones : ℕ → Option Value

section Compare

variable (S : Setting)

/-- `ht_eq_ctx` and `vm_ht_equiv`; there is no answer if `equal?` does not return. -/
def htEq (kind : HtEqKind) (a b : Value) : Option Bool :=
  match kind with
  | .eq => some (a.eq b)
  | .eqv => some (a.eqv S.fp b)
  | .equal => (equalRec S.fp S.store S.depth a b [] 64).map Prod.fst
  | .custom fns => some (fns.equiv a b).isTruthy

/-- A result of the user's hash procedure as a word: anything but a fixnum goes to one bucket. -/
def hashWord : Value → UInt64
  | .number (.fixnum n) => wordOfInt n.val
  | _ => 0

/-- `ht_hash_ctx`. -/
def htHash (kind : HtEqKind) (key : Value) : UInt64 :=
  match kind with
  | .eq => hashValue S.digest S.store key .eq
  | .eqv => hashValue S.digest S.store key .eqv
  | .equal => hashValue S.digest S.store key .equal
  | .custom fns => hashWord (fns.hash key)

end Compare

/-! ### The structure -/

namespace Hashtable

/-- `Hashtable::new` and `Hashtable::new_custom`. -/
def new (kind : HtEqKind) : Hashtable := ⟨kind, [], fun _ => [], fun _ => none⟩

/-- The keys, in the order of the entries. -/
def keys (t : Hashtable) : List Value := t.items.map Prod.fst

/-- `value_at`, for the referents that are alive: a tombstone is read where the entry is
unspecified, and dropped where it is not. -/
def valueAt (alive : Value → Bool) (t : Hashtable) (i : ℕ) : Option (Value × Hashtable) :=
  match t.items[i]? with
  | none => none
  | some (_, raw) =>
    if raw ≠ .unspecified then
      some (raw, { t with tombstones := Function.update t.tombstones i none })
    else
      match t.tombstones i with
      | some weak => some (if alive weak then weak else .unspecified, t)
      | none => some (raw, t)

/-- The value of an entry is overwritten. -/
def writeItem (t : Hashtable) (i : ℕ) (v : Value) : Hashtable :=
  { t with items := t.items.modify i fun kv => (kv.1, v) }

/-- `set_value_at`. -/
def setValueAt (t : Hashtable) (i : ℕ) (v : Value) : Hashtable :=
  { t.writeItem i v with tombstones := Function.update t.tombstones i none }

/-- `break_value_cycle`, once the guards have let it through. -/
def breakValueCycle (t : Hashtable) (i : ℕ) : Hashtable :=
  match t.items[i]? with
  | some (_, v) =>
    { t.writeItem i .unspecified with tombstones := Function.update t.tombstones i (some v) }
  | none => t

/-- An entry is added at the end, and the index is left alone. -/
def pushItem (t : Hashtable) (key v : Value) : Hashtable :=
  { t with items := t.items ++ [(key, v)] }

/-- `swap_remove_item`: the tombstone of the last entry moves with it. -/
def swapRemoveItem (t : Hashtable) (i : ℕ) : Hashtable :=
  let items := Assoc.swapRemove t.items i
  let movedFrom := items.length
  let cleared := Function.update t.tombstones i none
  { t with
    items := items
    tombstones := match cleared movedFrom with
      | some weak => Function.update (Function.update cleared movedFrom none) i (some weak)
      | none => cleared }

/-- `clear_items`. -/
def clearItems (t : Hashtable) : Hashtable := { t with items := [], tombstones := fun _ => none }

end Hashtable

/-! ### The builtins of the walker -/

section Builtins

variable (S : Setting)

/-- `ht_find_index`: a search through the bucket of the key. -/
def htFindIndex (t : Hashtable) (key : Value) : Option (Option ℕ) :=
  Assoc.probe (fun k => htEq S t.kind k key) t.keys (t.index (htHash S t.kind key))

/-- `ht_reindex_all`. -/
def htReindexAll (t : Hashtable) : Hashtable :=
  { t with index := Assoc.rebuild (htHash S t.kind) t.keys }

/-- An entry is added with its position in the index. -/
def insertItem (t : Hashtable) (key v : Value) : Hashtable :=
  { t.pushItem key v with
    index := Assoc.indexInsert t.index (htHash S t.kind key) t.items.length }

/-- `hashtable-set!`. Whether the cycle detector breaks the cycle at the value depends on the rest
of the heap. -/
def bHashtableSet (t : Hashtable) (key v : Value) (breaks : Bool) : Option (Hashtable × Value) := do
  let found ← htFindIndex S t key
  let (t, written) := match found with
    | some i => (t.setValueAt i v, i)
    | none => (insertItem S t key v, t.items.length)
  let t := if breaks && !Gc.valueIsAcyclicLeaf v then t.breakValueCycle written else t
  return (t, .unspecified)

/-- The answer of `hashtable-ref` for a position, or without one. -/
def refFound (alive : Value → Bool) (t : Hashtable) (default : Value) :
    Option ℕ → Hashtable × Value
  | some i =>
    match t.valueAt alive i with
    | some (v, t) => (t, v)
    | none => (t, .unspecified)
  | none => (t, default)

/-- `hashtable-ref`. -/
def bHashtableRef (alive : Value → Bool) (t : Hashtable) (key default : Value) :
    Option (Hashtable × Value) := do
  let found ← htFindIndex S t key
  return refFound alive t default found

/-- `hashtable-contains?`. -/
def bHashtableContains (t : Hashtable) (key : Value) : Option (Hashtable × Value) := do
  let found ← htFindIndex S t key
  return (t, .boolean found.isSome)

/-- `hashtable-delete!`. -/
def bHashtableDelete (t : Hashtable) (key : Value) : Option (Hashtable × Value) := do
  match ← htFindIndex S t key with
  | some i => return (htReindexAll S (t.swapRemoveItem i), .unspecified)
  | none => return (t, .unspecified)

/-- `hashtable-update!`; the entry is located again after the procedure has run. -/
def bHashtableUpdate (alive : Value → Bool) (t : Hashtable) (key : Value) (proc : Value → Value)
    (default : Value) : Option (Hashtable × Value) := do
  let found ← htFindIndex S t key
  let (t, current) := refFound alive t default found
  let v := proc current
  match ← htFindIndex S t key with
  | some i => return (t.setValueAt i v, .unspecified)
  | none => return (insertItem S t key v, .unspecified)

/-- `hashtable-clear!`, of both tiers. -/
def bHashtableClear (t : Hashtable) : Hashtable := { t.clearItems with index := fun _ => [] }

/-- `hashtable-copy`, of both tiers: the entries are copied as they are, without tombstones. -/
def bHashtableCopy (t : Hashtable) : Hashtable := { t with tombstones := fun _ => none }

/-! ### The shims of the VM -/

/-- The loop of the shims: a search through all entries. -/
def vmFind (t : Hashtable) (key : Value) : Option (Option ℕ) :=
  Assoc.probe (fun k => htEq S t.kind k key) t.keys (List.range t.items.length)

/-- The shim for `hashtable-set!`. -/
def vmHashtableSet (t : Hashtable) (key v : Value) : Option (Hashtable × Value) := do
  match ← vmFind S t key with
  | some i => return (t.setValueAt i v, .unspecified)
  | none => return (t.pushItem key v, .unspecified)

/-- The shim for `hashtable-ref`. -/
def vmHashtableRef (alive : Value → Bool) (t : Hashtable) (key default : Value) :
    Option (Hashtable × Value) := do
  let found ← vmFind S t key
  return refFound alive t default found

/-- The shim for `hashtable-contains?`. -/
def vmHashtableContains (t : Hashtable) (key : Value) : Option (Hashtable × Value) := do
  let found ← vmFind S t key
  return (t, .boolean found.isSome)

/-- The shim for `hashtable-delete!`. -/
def vmHashtableDelete (t : Hashtable) (key : Value) : Option (Hashtable × Value) := do
  match ← vmFind S t key with
  | some i => return (t.swapRemoveItem i, .unspecified)
  | none => return (t, .unspecified)

/-- `hashtable-update!` of the VM: it reads and writes the entries as they are, and panics when it
has to compare keys of a custom table. -/
def vmHashtableUpdate (t : Hashtable) (key : Value) (proc : Value → Value) (default : Value) :
    Option (Hashtable × Value) :=
  match t.kind, t.items with
  | .custom _, _ :: _ => none
  | _, _ => do
    let found ← vmFind S t key
    let current := ((found.bind fun i => t.items[i]?).map Prod.snd).getD default
    let v := proc current
    match ← vmFind S t key with
    | some i => return (t.writeItem i v, .unspecified)
    | none => return (t.pushItem key v, .unspecified)

end Builtins

/-! ### Calls -/

/-- The two implementations. -/
inductive Tier
  | walker
  | vm
deriving DecidableEq

/-- Calls on one table, with what they depend on besides the table: the decision of the cycle
detector, and which referents of tombstones are alive. -/
inductive Op
  | set (tier : Tier) (key v : Value) (breaks : Bool)
  | ref (tier : Tier) (key default : Value) (alive : Value → Bool)
  | contains (tier : Tier) (key : Value)
  | delete (tier : Tier) (key : Value)
  | update (tier : Tier) (key : Value) (proc : Value → Value) (default : Value)
      (alive : Value → Bool)
  | clear

/-- Calls of a program; tables are numbered in the order in which they were made. -/
inductive Call
  | make (kind : HtEqKind)
  | copy (i : ℕ)
  | op (i : ℕ) (op : Op)

section Runs

variable (S : Setting)

/-- A call on a table, with its answer; there is none if it does not return. -/
def runOp : Op → Hashtable → Option (Hashtable × Value)
  | .set .walker key v breaks, t => bHashtableSet S t key v breaks
  | .set .vm key v _, t => vmHashtableSet S t key v
  | .ref .walker key default alive, t => bHashtableRef S alive t key default
  | .ref .vm key default alive, t => vmHashtableRef S alive t key default
  | .contains .walker key, t => bHashtableContains S t key
  | .contains .vm key, t => vmHashtableContains S t key
  | .delete .walker key, t => bHashtableDelete S t key
  | .delete .vm key, t => vmHashtableDelete S t key
  | .update .walker key proc default alive, t => bHashtableUpdate S alive t key proc default
  | .update .vm key proc default _, t => vmHashtableUpdate S t key proc default
  | .clear, t => some (bHashtableClear t, .unspecified)

/-- The tables of a program and the answers of its calls; a call that does not return has none. -/
structure Session where
  tables : List Hashtable
  answers : List (Option Value)

/-- One call. -/
def Session.step (c : Call) (s : Session) : Session :=
  match c with
  | .make kind => ⟨s.tables ++ [.new kind], s.answers ++ [some (.hashtable s.tables.length)]⟩
  | .copy i =>
    match s.tables[i]? with
    | some t => ⟨s.tables ++ [bHashtableCopy t], s.answers ++ [some (.hashtable s.tables.length)]⟩
    | none => ⟨s.tables, s.answers ++ [none]⟩
  | .op i op =>
    match s.tables[i]?.bind (runOp S op) with
    | some (t, v) => ⟨s.tables.set i t, s.answers ++ [some v]⟩
    | none => ⟨s.tables, s.answers ++ [none]⟩

/-! ### Maps -/

/-- **When two keys count as one.** -/
def HtEqKind.Same (kind : HtEqKind) (a b : Value) : Prop :=
  match kind with
  | .eq => a.eq b = true
  | .eqv => a.eqv S.fp b = true
  | .equal => Data.Same S.fp S.store a b
  | .custom fns => (fns.equiv a b).isTruthy = true

/-- **What a call does to a map**, and its answer: the value of the most recent write to a key that
counts as the same and was not removed since. -/
noncomputable def idealOp (same : Value → Value → Prop) :
    Op → (Value → Option Value) → (Value → Option Value) × Value
  | .set _ key v _, m => (Assoc.insert same m key v, .unspecified)
  | .ref _ key default _, m => (m, (m key).getD default)
  | .contains _ key, m => (m, .boolean (m key).isSome)
  | .delete _ key, m => (Assoc.erase same m key, .unspecified)
  | .update _ key proc default _, m =>
    (Assoc.insert same m key (proc ((m key).getD default)), .unspecified)
  | .clear, _ => (fun _ => none, .unspecified)

/-- The maps of a program and the answers of its calls. -/
structure Ideal where
  maps : List (HtEqKind × (Value → Option Value))
  answers : List (Option Value)

/-- A new map. -/
def Ideal.new (kind : HtEqKind) : HtEqKind × (Value → Option Value) := (kind, fun _ => none)

/-- One call on the maps. -/
noncomputable def Ideal.step (c : Call) (s : Ideal) : Ideal :=
  match c with
  | .make kind => ⟨s.maps ++ [Ideal.new kind], s.answers ++ [some (.hashtable s.maps.length)]⟩
  | .copy i =>
    match s.maps[i]? with
    | some m => ⟨s.maps ++ [m], s.answers ++ [some (.hashtable s.maps.length)]⟩
    | none => ⟨s.maps, s.answers ++ [none]⟩
  | .op i op =>
    match s.maps[i]? with
    | some (kind, m) =>
      let r := idealOp (kind.Same S) op m
      ⟨s.maps.set i (kind, r.1), s.answers ++ [some r.2]⟩
    | none => ⟨s.maps, s.answers ++ [none]⟩

end Runs

/-! ### The calls that behave -/

/-- The procedures of the user are an equivalence and a hash that is consistent with it. -/
structure CustomHashFns.Lawful (fns : CustomHashFns) : Prop where
  equivalence : Equivalence fun a b => (fns.equiv a b).isTruthy = true
  consistent : ∀ a b, (fns.equiv a b).isTruthy = true →
    hashWord (fns.hash a) = hashWord (fns.hash b)

/-- The laws for the tables of a kind. -/
def HtEqKind.Lawful : HtEqKind → Prop
  | .custom fns => fns.Lawful
  | _ => True

section Conditions

variable (S : Setting)

/-- Numbers at corresponding places of two keys are the same, as far as the hash looks. -/
def HtEqKind.SameNumbers (kind : HtEqKind) (a b : Value) : Prop :=
  match kind with
  | .eqv => Data.SameNumbers S.store 1 a b
  | .equal => Data.SameNumbers S.store 16 a b
  | _ => True

/-- **A key that can be searched for**: its comparisons with the keys of the table return; and for
the walker the index mirrors the keys, and keys that count as the same hash alike. -/
structure Searchable (tier : Tier) (t : Hashtable) (key : Value) : Prop where
  returns : ∀ k ∈ t.keys, (htEq S t.kind k key).isSome = true
  mirrors : tier = .walker → Assoc.Mirrors (htHash S t.kind) t.keys t.index
  numbers : tier = .walker → ∀ k ∈ t.keys, t.kind.Same S k key → t.kind.SameNumbers S k key

/-- If the value of a key was demoted, its referent is alive. -/
def Readable (t : Hashtable) (key : Value) (alive : Value → Bool) : Prop :=
  ∀ i w k v, t.tombstones i = some w → t.items[i]? = some (k, v) → t.kind.Same S k key →
    alive w = true

/-- The calls on a table that behave. `hashtable-update!` of the VM needs a table that is not
custom, or empty, and a value that was not demoted. -/
def FitsOp (t : Hashtable) : Op → Prop
  | .set tier key _ _ => Searchable S tier t key
  | .ref tier key _ alive => Searchable S tier t key ∧ Readable S t key alive
  | .contains tier key => Searchable S tier t key
  | .delete tier key => Searchable S tier t key
  | .update .walker key _ _ alive => Searchable S .walker t key ∧ Readable S t key alive
  | .update .vm key _ _ _ => Searchable S .vm t key ∧ Readable S t key (fun _ => false) ∧
      ∀ fns, t.kind = .custom fns → t.items = []
  | .clear => True

/-- **The calls that behave**; a table is copied only while none of its values is demoted. -/
def Fits (s : Session) : Call → Prop
  | .make kind => kind.Lawful
  | .copy i => ∀ t, s.tables[i]? = some t → ∀ j, t.tombstones j = none
  | .op i op => ∀ t, s.tables[i]? = some t → FitsOp S t op

end Conditions

/-! ### Comparing and hashing -/

section Keys

variable {S : Setting} {kind : HtEqKind} {a b : Value}

lemma htEq_decides {r : Bool} (h : htEq S kind a b = some r) : r = true ↔ kind.Same S a b := by
  cases kind with
  | equal =>
    obtain ⟨⟨r', visited⟩, heq, rfl⟩ := Option.map_eq_some_iff.1 h
    exact equalRec_decides heq
  | _ =>
    cases h
    rfl

lemma HtEqKind.same_partial (hfp : S.fp.eq = F64.ieeeEq) (hk : kind.Lawful) :
    Assoc.Partial (kind.Same S) := by
  cases kind with
  | eq =>
    refine ⟨fun a b h => ?_, fun a b c h h' => ?_⟩
    · obtain ⟨rfl, -⟩ := Value.eq_iff.1 h
      exact h
    · obtain ⟨rfl, -⟩ := Value.eq_iff.1 h
      exact h'
  | eqv => exact ⟨fun _ _ => Value.eqv_symm hfp, fun _ _ _ => Value.eqv_trans hfp⟩
  | equal => exact ⟨fun _ _ => .symm hfp, fun _ _ _ => .trans hfp⟩
  | custom fns => exact ⟨fun _ _ => hk.equivalence.symm, fun _ _ _ => hk.equivalence.trans⟩

lemma htHash_eq (hk : kind.Lawful) (hab : kind.Same S a b) (hsame : kind.SameNumbers S a b) :
    htHash S kind a = htHash S kind b := by
  cases kind with
  | eq =>
    obtain ⟨rfl, -⟩ := Value.eq_iff.1 hab
    rfl
  | eqv =>
    rcases Value.eq_of_eqv S.fp hab with rfl | ⟨x, y, rfl, rfl⟩
    · rfl
    · obtain rfl : x = y := hsame
      rfl
  | equal => exact hashEqual_eq_of_alike (hab.alike 16) hsame
  | custom fns => exact hk.consistent a b hab

end Keys

/-! ### One table -/

/-- The entries of a table with the values that were stored in them. -/
def Hashtable.entries (t : Hashtable) : List (Value × Value) :=
  t.items.mapIdx fun i kv => (kv.1, (t.tombstones i).getD kv.2)

/-- **A table refines a map**: tombstones belong to unspecified entries, and the entries represent
the map. -/
structure Refines (S : Setting) (t : Hashtable) (m : Value → Option Value) : Prop where
  lawful : t.kind.Lawful
  tombstones : ∀ i w, t.tombstones i = some w → ∃ k, t.items[i]? = some (k, .unspecified)
  represents : Assoc.Represents (t.kind.Same S) t.entries m

section Table

variable {S : Setting} {t : Hashtable} {m : Value → Option Value} {key k₀ v v₀ : Value} {i : ℕ}

lemma Hashtable.getElem?_entries (t : Hashtable) (i : ℕ) :
    t.entries[i]? = t.items[i]?.map fun kv => (kv.1, (t.tombstones i).getD kv.2) := by
  rw [entries, List.getElem?_mapIdx]

lemma Hashtable.map_fst_entries (t : Hashtable) : t.entries.map Prod.fst = t.keys := by
  refine List.ext_getElem? fun i => ?_
  rw [List.getElem?_map, getElem?_entries, keys, List.getElem?_map, Option.map_map]
  rfl

lemma Hashtable.getElem?_keys_of_entries (hi : t.entries[i]? = some (k₀, v)) :
    t.keys[i]? = some k₀ := by
  rw [← map_fst_entries, List.getElem?_map, hi]
  rfl

/-- The search of a tier. -/
def Tier.find (S : Setting) (tier : Tier) (t : Hashtable) (key : Value) : Option (Option ℕ) :=
  match tier with
  | .walker => htFindIndex S t key
  | .vm => vmFind S t key

lemma Refines.search (hr : Refines S t m) {tier : Tier} (hs : Searchable S tier t key) :
    (∃ i k₀ v, t.entries[i]? = some (k₀, v) ∧ t.kind.Same S k₀ key ∧
        tier.find S t key = some (some i)) ∨
      (tier.find S t key = some none ∧ ∀ kv ∈ t.entries, ¬ t.kind.Same S kv.1 key) := by
  -- the positions that are searched, and that no key like the one searched for is left out
  obtain ⟨is, hprobe, hrange, hall⟩ : ∃ is,
      tier.find S t key = Assoc.probe (fun k => htEq S t.kind k key) t.keys is ∧
      (∀ i ∈ is, ∃ k, t.keys[i]? = some k) ∧
      ∀ i k, t.keys[i]? = some k → t.kind.Same S k key → i ∈ is := by
    cases tier with
    | walker =>
      refine ⟨_, rfl, fun i hi => ?_, fun i k hk hsame => ?_⟩
      · obtain ⟨k, hk, -⟩ := ((hs.mirrors rfl).mem_iff).1 hi
        exact ⟨k, hk⟩
      · refine ((hs.mirrors rfl).mem_iff).2 ⟨k, hk, ?_⟩
        exact htHash_eq hr.lawful hsame (hs.numbers rfl k (List.mem_of_getElem? hk) hsame)
    | vm =>
      refine ⟨_, rfl, fun i hi => ?_, fun i k hk hsame => ?_⟩
      · have hlen : i < t.keys.length := by simpa [Hashtable.keys] using hi
        exact ⟨_, List.getElem?_eq_getElem hlen⟩
      · have hlen := (List.getElem?_eq_some_iff.1 hk).1
        simpa [Hashtable.keys] using hlen
  rcases Assoc.probe_spec
    (fun i hi => by
      obtain ⟨k, hk⟩ := hrange i hi
      exact ⟨k, hk, hs.returns k (List.mem_of_getElem? hk)⟩) with
    ⟨i, -, k, hk, hcmp, heq⟩ | ⟨heq, hnone⟩
  · rw [← Hashtable.map_fst_entries, List.getElem?_map] at hk
    obtain ⟨⟨k', v⟩, hkv, rfl⟩ := Option.map_eq_some_iff.1 hk
    exact .inl ⟨i, k', v, hkv, (htEq_decides hcmp).1 rfl, hprobe.trans heq⟩
  · refine .inr ⟨hprobe.trans heq, fun kv hkv hsame => ?_⟩
    obtain ⟨i, hi⟩ := List.mem_iff_getElem?.1 hkv
    have hk := Hashtable.getElem?_keys_of_entries hi
    have hfalse := hnone i (hall i kv.1 hk hsame) kv.1 hk
    exact absurd ((htEq_decides hfalse).2 hsame) (by decide)

lemma Refines.setValueAt (hfp : S.fp.eq = F64.ieeeEq) (hr : Refines S t m)
    (hi : t.entries[i]? = some (k₀, v₀)) (hk : t.kind.Same S k₀ key) (v : Value) :
    Refines S (t.setValueAt i v) (Assoc.insert (t.kind.Same S) m key v) := by
  refine ⟨hr.lawful, fun j w hj => ?_, ?_⟩
  · simp only [Hashtable.setValueAt, Hashtable.writeItem] at hj ⊢
    by_cases hji : j = i
    · subst hji
      simp at hj
    · rw [Function.update_of_ne hji] at hj
      obtain ⟨k, hk⟩ := hr.tombstones j w hj
      exact ⟨k, by simp [Ne.symm hji, hk]⟩
  · have hentries : (t.setValueAt i v).entries = t.entries.set i (k₀, v) := by
      refine List.ext_getElem? fun j => ?_
      rw [Hashtable.getElem?_entries, List.getElem?_set]
      simp only [Hashtable.setValueAt, Hashtable.writeItem]
      by_cases hji : i = j
      · subst hji
        rw [Hashtable.getElem?_entries] at hi
        obtain ⟨kv, hkv, heq⟩ := Option.map_eq_some_iff.1 hi
        have hlen : i < t.entries.length := by
          simpa [Hashtable.entries] using (List.getElem?_eq_some_iff.1 hkv).1
        obtain ⟨rfl, -⟩ := Prod.mk.inj heq
        simp [hkv, hlen]
      · rw [Hashtable.getElem?_entries]
        simp [hji, Function.update_of_ne (Ne.symm hji)]
    have hrep := hr.represents.set (HtEqKind.same_partial hfp hr.lawful) hi hk v
    rw [← hentries] at hrep
    exact hrep

lemma Refines.pushItem (hfp : S.fp.eq = F64.ieeeEq) (hr : Refines S t m)
    (hk : ∀ kv ∈ t.entries, ¬ t.kind.Same S kv.1 key) (v : Value) :
    Refines S (t.pushItem key v) (Assoc.insert (t.kind.Same S) m key v) := by
  have hlast : t.tombstones t.items.length = none := by
    rw [Option.eq_none_iff_forall_ne_some]
    intro w hw
    obtain ⟨k, hk⟩ := hr.tombstones _ w hw
    simp at hk
  refine ⟨hr.lawful, fun j w hj => ?_, ?_⟩
  · obtain ⟨k, hk⟩ := hr.tombstones j w hj
    exact ⟨k, by
      simp only [Hashtable.pushItem]
      rwa [List.getElem?_append_left (List.getElem?_eq_some_iff.1 hk).1]⟩
  · have hentries : (t.pushItem key v).entries = t.entries ++ [(key, v)] := by
      simp [Hashtable.entries, Hashtable.pushItem, hlast]
    have hrep := hr.represents.push (HtEqKind.same_partial hfp hr.lawful) hk v
    rw [← hentries] at hrep
    exact hrep

lemma Refines.breakValueCycle (hr : Refines S t m) (hi : t.tombstones i = none) :
    Refines S (t.breakValueCycle i) m := by
  unfold Hashtable.breakValueCycle
  split
  · rename_i k v hkv
    refine ⟨hr.lawful, fun j w hj => ?_, ?_⟩
    · simp only [Hashtable.writeItem] at hj ⊢
      by_cases hji : j = i
      · subst hji
        exact ⟨k, by simp [hkv]⟩
      · rw [Function.update_of_ne hji] at hj
        obtain ⟨k', hk'⟩ := hr.tombstones j w hj
        exact ⟨k', by simp [Ne.symm hji, hk']⟩
    · have hentries : ({ t.writeItem i .unspecified with
          tombstones := Function.update t.tombstones i (some v) } : Hashtable).entries =
          t.entries := by
        refine List.ext_getElem? fun j => ?_
        rw [Hashtable.getElem?_entries, Hashtable.getElem?_entries]
        simp only [Hashtable.writeItem]
        by_cases hji : i = j
        · subst hji
          simp [hkv, hi]
        · simp [hji, Function.update_of_ne (Ne.symm hji)]
      have hrep := hr.represents
      rw [← hentries] at hrep
      exact hrep
  · exact hr

lemma Hashtable.tombstones_swapRemoveItem (hi : i < t.items.length) (j : ℕ) :
    (t.swapRemoveItem i).tombstones j =
      if j = i then (if i = t.items.length - 1 then none else t.tombstones (t.items.length - 1))
      else if j = t.items.length - 1 then none else t.tombstones j := by
  have hmoved : (Assoc.swapRemove t.items i).length = t.items.length - 1 := by
    rw [(Assoc.swapRemove_perm hi).length_eq, List.length_eraseIdx_of_lt hi]
  simp only [swapRemoveItem, hmoved]
  by_cases hlast : i = t.items.length - 1
  · rw [← hlast]
    by_cases hji : j = i
    · simp [hji]
    · simp [hji]
  · rw [Function.update_of_ne (Ne.symm hlast)]
    cases hw : t.tombstones (t.items.length - 1) with
    | none =>
      dsimp only
      by_cases hji : j = i
      · simp [hji]
      · by_cases hjl : j = t.items.length - 1
        · simp [hjl, Ne.symm hlast, hw]
        · simp [hji, hjl]
    | some w =>
      by_cases hji : j = i
      · simp [hji, hlast]
      · by_cases hjl : j = t.items.length - 1
        · simp [hjl, Ne.symm hlast]
        · simp [hji, hjl]

lemma Refines.swapRemoveItem (hfp : S.fp.eq = F64.ieeeEq) (hr : Refines S t m)
    (hi : t.entries[i]? = some (k₀, v₀)) (hk : t.kind.Same S k₀ key) :
    Refines S (t.swapRemoveItem i) (Assoc.erase (t.kind.Same S) m key) := by
  have hlen' : i < t.entries.length := (List.getElem?_eq_some_iff.1 hi).1
  have hlen : i < t.items.length := by simpa [Hashtable.entries] using hlen'
  have hcount : t.entries.length = t.items.length := by simp [Hashtable.entries]
  have htomb := Hashtable.tombstones_swapRemoveItem hlen
  have hitems : (t.swapRemoveItem i).items = Assoc.swapRemove t.items i := rfl
  refine ⟨hr.lawful, fun j w hj => ?_, ?_⟩
  · rw [htomb] at hj
    rw [hitems, Assoc.getElem?_swapRemove hlen]
    split at hj
    · rename_i hji
      split at hj
      · cases hj
      · obtain ⟨k, hkl⟩ := hr.tombstones _ w hj
        refine ⟨k, ?_⟩
        rw [if_pos (by omega), if_pos hji, hkl]
    · rename_i hji
      split at hj
      · cases hj
      · obtain ⟨k, hkj⟩ := hr.tombstones _ w hj
        have := (List.getElem?_eq_some_iff.1 hkj).1
        refine ⟨k, ?_⟩
        rw [if_pos (by omega), if_neg hji, hkj]
  · have hentries : (t.swapRemoveItem i).entries = Assoc.swapRemove t.entries i := by
      refine List.ext_getElem? fun j => ?_
      rw [Hashtable.getElem?_entries, hitems, Assoc.getElem?_swapRemove hlen,
        Assoc.getElem?_swapRemove hlen', hcount, htomb]
      by_cases hj : j < t.items.length - 1
      · rw [if_pos hj, if_pos hj, if_neg (show ¬ j = t.items.length - 1 by omega)]
        by_cases hji : j = i
        · rw [if_pos hji, if_pos hji, if_pos hji, if_neg (by omega), Hashtable.getElem?_entries]
        · rw [if_neg hji, if_neg hji, if_neg hji, Hashtable.getElem?_entries]
      · rw [if_neg hj, if_neg hj]
        rfl
    have hpart := HtEqKind.same_partial hfp hr.lawful
    have hrep := (hr.represents.eraseIdx hpart hi hk).perm hpart (Assoc.swapRemove_perm hlen').symm
    rw [← hentries] at hrep
    exact hrep

lemma Refines.valueAt (hr : Refines S t m) {alive : Value → Bool} (halive : Readable S t key alive)
    (hi : t.entries[i]? = some (k₀, v)) (hk : t.kind.Same S k₀ key) :
    t.valueAt alive i = some (v, t) := by
  rw [Hashtable.getElem?_entries] at hi
  obtain ⟨⟨k, raw⟩, hkv, heq⟩ := Option.map_eq_some_iff.1 hi
  obtain ⟨rfl, rfl⟩ := Prod.mk.inj heq
  rw [Hashtable.valueAt, hkv]
  dsimp only
  cases hw : t.tombstones i with
  | none =>
    have hself : Function.update t.tombstones i none = t.tombstones := by
      rw [← hw, Function.update_eq_self]
    rw [hself]
    split <;> rfl
  | some w =>
    obtain ⟨k', hk'⟩ := hr.tombstones i w hw
    rw [hkv, Option.some.injEq] at hk'
    obtain ⟨-, rfl⟩ := Prod.mk.inj hk'
    simp [halive i w k .unspecified hw hkv hk]

lemma Refines.refFound (hr : Refines S t m) {alive : Value → Bool}
    (halive : Readable S t key alive) (default : Value) {found : Option ℕ}
    (hfound : (∃ i k₀ v, t.entries[i]? = some (k₀, v) ∧ t.kind.Same S k₀ key ∧ found = some i) ∨
      (found = none ∧ ∀ kv ∈ t.entries, ¬ t.kind.Same S kv.1 key)) :
    refFound alive t default found = (t, (m key).getD default) := by
  rcases hfound with ⟨i, k₀, v, hi, hk, rfl⟩ | ⟨rfl, hnone⟩
  · rw [Data.refFound, hr.valueAt halive hi hk, hr.represents.get_of_mem hi hk]
    rfl
  · rw [hr.represents.get_of_absent hnone]
    rfl

section

variable (hfp : S.fp.eq = F64.ieeeEq) (hr : Refines S t m)

include hfp hr

lemma Refines.bHashtableSet (hs : Searchable S .walker t key) (v : Value) (breaks : Bool) :
    ∃ t', Data.bHashtableSet S t key v breaks = some (t', .unspecified) ∧ t'.kind = t.kind ∧
      Refines S t' (Assoc.insert (t.kind.Same S) m key v) := by
  -- the value may be demoted after it was written
  have hbreak : ∀ (t' : Hashtable) (j : ℕ), t'.kind = t.kind → t'.tombstones j = none →
      Refines S t' (Assoc.insert (t.kind.Same S) m key v) →
      (if breaks && !Gc.valueIsAcyclicLeaf v then t'.breakValueCycle j else t').kind = t.kind ∧
      Refines S (if breaks && !Gc.valueIsAcyclicLeaf v then t'.breakValueCycle j else t')
        (Assoc.insert (t.kind.Same S) m key v) := by
    intro t' j hkind hj hr'
    split
    · refine ⟨?_, hr'.breakValueCycle hj⟩
      rw [← hkind, Hashtable.breakValueCycle]
      split <;> rfl
    · exact ⟨hkind, hr'⟩
  rcases hr.search hs with ⟨i, k₀, v₀, hi, hk, hfound⟩ | ⟨hfound, hnone⟩ <;>
    simp only [Tier.find] at hfound
  · refine ⟨_, by simp only [Data.bHashtableSet, hfound]; rfl, ?_⟩
    exact hbreak (t.setValueAt i v) i rfl (by simp [Hashtable.setValueAt])
      (hr.setValueAt hfp hi hk v)
  · refine ⟨_, by simp only [Data.bHashtableSet, hfound]; rfl, ?_⟩
    refine hbreak (insertItem S t key v) t.items.length rfl ?_ ?_
    · rw [Option.eq_none_iff_forall_ne_some]
      intro w hw
      obtain ⟨k, hk⟩ := hr.tombstones t.items.length w hw
      simp at hk
    · have hpush := hr.pushItem hfp hnone v
      exact ⟨hpush.lawful, hpush.tombstones, hpush.represents⟩

lemma Refines.bHashtableUpdate (hs : Searchable S .walker t key) {alive : Value → Bool}
    (halive : Readable S t key alive) (proc : Value → Value) (default : Value) :
    ∃ t', Data.bHashtableUpdate S alive t key proc default = some (t', .unspecified) ∧
      t'.kind = t.kind ∧
      Refines S t' (Assoc.insert (t.kind.Same S) m key (proc ((m key).getD default))) := by
  rcases hr.search hs with ⟨i, k₀, v₀, hi, hk, hfound⟩ | ⟨hfound, hnone⟩ <;>
    simp only [Tier.find] at hfound
  · refine ⟨t.setValueAt i (proc ((m key).getD default)), ?_, rfl, hr.setValueAt hfp hi hk _⟩
    simp only [Data.bHashtableUpdate, hfound, Option.bind_eq_bind, Option.bind_some,
      hr.refFound halive default (.inl ⟨i, k₀, v₀, hi, hk, rfl⟩)]
    rfl
  · have hpush := hr.pushItem hfp hnone (proc ((m key).getD default))
    refine ⟨insertItem S t key (proc ((m key).getD default)), ?_, rfl,
      hpush.lawful, hpush.tombstones, hpush.represents⟩
    simp only [Data.bHashtableUpdate, hfound, Option.bind_eq_bind, Option.bind_some,
      hr.refFound halive default (.inr ⟨rfl, hnone⟩)]
    rfl

lemma Refines.vmHashtableUpdate (hs : Searchable S .vm t key)
    (hstrong : Readable S t key fun _ => false)
    (hcustom : ∀ fns, t.kind = .custom fns → t.items = []) (proc : Value → Value) (default : Value)
    : ∃ t', Data.vmHashtableUpdate S t key proc default = some (t', .unspecified) ∧
      t'.kind = t.kind ∧
      Refines S t' (Assoc.insert (t.kind.Same S) m key (proc ((m key).getD default))) := by
  have hupdate : Data.vmHashtableUpdate S t key proc default = (do
      let found ← vmFind S t key
      let current := ((found.bind fun i => t.items[i]?).map Prod.snd).getD default
      let v := proc current
      match ← vmFind S t key with
      | some i => return (t.writeItem i v, .unspecified)
      | none => return (t.pushItem key v, .unspecified)) := by
    unfold Data.vmHashtableUpdate
    split
    · rename_i fns kv rest hkind hitems
      rw [hcustom fns hkind] at hitems
      cases hitems
    · rfl
  rw [hupdate]
  rcases hr.search hs with ⟨i, k₀, v₀, hi, hk, hfound⟩ | ⟨hfound, hnone⟩ <;>
    simp only [Tier.find] at hfound
  · -- the entry has no tombstone, so it is read and written as it is
    obtain ⟨⟨k, raw⟩, hkv, heq⟩ := Option.map_eq_some_iff.1
      ((Hashtable.getElem?_entries t i).symm.trans hi)
    obtain ⟨rfl, rfl⟩ := Prod.mk.inj heq
    have htomb : t.tombstones i = none := by
      rw [Option.eq_none_iff_forall_ne_some]
      intro w hw
      exact absurd (hstrong i w k raw hw hkv hk) Bool.false_ne_true
    have hwrite : t.writeItem i (proc raw) = t.setValueAt i (proc raw) := by
      rw [Hashtable.setValueAt, ← htomb, Function.update_eq_self]
      rfl
    have hget := hr.represents.get_of_mem hi hk
    refine ⟨t.setValueAt i (proc raw), ?_, rfl, ?_⟩
    · rw [← hwrite]
      simp only [hfound, Option.bind_eq_bind, Option.bind_some, hkv]
      rfl
    · have hset := hr.setValueAt hfp hi hk (proc raw)
      rw [hget]
      simpa [htomb] using hset
  · refine ⟨t.pushItem key (proc default), ?_, rfl, ?_⟩
    · simp only [hfound]
      rfl
    · rw [hr.represents.get_of_absent hnone]
      exact hr.pushItem hfp hnone (proc default)

/-- **A call on one table** answers what the map answers. -/
theorem Refines.runOp {op : Op} (hop : FitsOp S t op) :
    ∃ t', Data.runOp S op t = some (t', (idealOp (t.kind.Same S) op m).2) ∧ t'.kind = t.kind ∧
      Refines S t' (idealOp (t.kind.Same S) op m).1 := by
  have hpart := HtEqKind.same_partial hfp hr.lawful
  cases op with
  | set tier key v breaks =>
    cases tier with
    | walker => exact hr.bHashtableSet hfp hop v breaks
    | vm =>
      rcases hr.search hop with ⟨i, k₀, v₀, hi, hk, hfound⟩ | ⟨hfound, hnone⟩ <;>
        simp only [Tier.find] at hfound
      · exact ⟨t.setValueAt i v, by simp [Data.runOp, vmHashtableSet, hfound, idealOp], rfl,
          hr.setValueAt hfp hi hk v⟩
      · exact ⟨t.pushItem key v, by simp [Data.runOp, vmHashtableSet, hfound, idealOp], rfl,
          hr.pushItem hfp hnone v⟩
  | ref tier key default alive =>
    obtain ⟨hs, halive⟩ := hop
    refine ⟨t, ?_, rfl, hr⟩
    rcases hr.search hs with ⟨i, k₀, v₀, hi, hk, hfound⟩ | ⟨hfound, hnone⟩
    · have href := hr.refFound halive default (.inl ⟨i, k₀, v₀, hi, hk, rfl⟩)
      cases tier <;> simp only [Tier.find] at hfound <;>
        simp [Data.runOp, bHashtableRef, vmHashtableRef, hfound, href, idealOp]
    · have href := hr.refFound halive default (.inr ⟨rfl, hnone⟩)
      cases tier <;> simp only [Tier.find] at hfound <;>
        simp [Data.runOp, bHashtableRef, vmHashtableRef, hfound, href, idealOp]
  | contains tier key =>
    refine ⟨t, ?_, rfl, hr⟩
    rcases hr.search hop with ⟨i, k₀, v₀, hi, hk, hfound⟩ | ⟨hfound, hnone⟩
    · have hget := hr.represents.get_of_mem hi hk
      cases tier <;> simp only [Tier.find] at hfound <;>
        simp [Data.runOp, bHashtableContains, vmHashtableContains, hfound, hget, idealOp]
    · have hget := hr.represents.get_of_absent hnone
      cases tier <;> simp only [Tier.find] at hfound <;>
        simp [Data.runOp, bHashtableContains, vmHashtableContains, hfound, hget, idealOp]
  | delete tier key =>
    rcases hr.search hop with ⟨i, k₀, v₀, hi, hk, hfound⟩ | ⟨hfound, hnone⟩
    · have hremoved := hr.swapRemoveItem hfp hi hk
      cases tier <;> simp only [Tier.find] at hfound
      case walker =>
        exact ⟨htReindexAll S (t.swapRemoveItem i),
          by simp [Data.runOp, bHashtableDelete, hfound, idealOp], rfl,
          hremoved.lawful, hremoved.tombstones, hremoved.represents⟩
      case vm =>
        exact ⟨t.swapRemoveItem i, by simp [Data.runOp, vmHashtableDelete, hfound, idealOp], rfl,
          hremoved⟩
    · refine ⟨t, ?_, rfl, hr.lawful, hr.tombstones, hr.represents.erase_of_absent hpart hnone⟩
      cases tier <;> simp only [Tier.find] at hfound <;>
        simp [Data.runOp, bHashtableDelete, vmHashtableDelete, hfound, idealOp]
  | update tier key proc default alive =>
    cases tier with
    | walker => exact hr.bHashtableUpdate hfp hop.1 hop.2 proc default
    | vm => exact hr.vmHashtableUpdate hfp hop.1 hop.2.1 hop.2.2 proc default
  | clear =>
    refine ⟨bHashtableClear t, rfl, rfl, hr.lawful, fun i w hw => ?_, Assoc.represents_nil⟩
    simp [bHashtableClear, Hashtable.clearItems] at hw

end

end Table

/-! ### Runs -/

/-- The tables of a program refine its maps, and the answers are the same. -/
structure Agree (S : Setting) (s : Session) (d : Ideal) : Prop where
  answers : s.answers = d.answers
  length : s.tables.length = d.maps.length
  refines : ∀ (i : ℕ) (t : Hashtable), s.tables[i]? = some t →
    ∃ m, d.maps[i]? = some (t.kind, m) ∧ Refines S t m

section Runs

variable {S : Setting} {s : Session} {d : Ideal}

lemma Agree.push (h : Agree S s d) {t : Hashtable} {m : Value → Option Value}
    (ht : Refines S t m) :
    Agree S ⟨s.tables ++ [t], s.answers ++ [some (.hashtable s.tables.length)]⟩
      ⟨d.maps ++ [(t.kind, m)], d.answers ++ [some (.hashtable d.maps.length)]⟩ := by
  refine ⟨by rw [h.answers, h.length], by simp [h.length], fun i t' ht' => ?_⟩
  rcases Nat.lt_trichotomy i s.tables.length with hlt | heq | hgt
  · rw [List.getElem?_append_left hlt] at ht'
    obtain ⟨m', hm', hr'⟩ := h.refines i t' ht'
    exact ⟨m', by rwa [List.getElem?_append_left (h.length ▸ hlt)], hr'⟩
  · subst heq
    rw [List.getElem?_concat_length, Option.some.injEq] at ht'
    subst ht'
    exact ⟨m, by rw [h.length, List.getElem?_concat_length], ht⟩
  · rw [List.getElem?_eq_none (by simp; omega)] at ht'
    cases ht'

/-- **One call.** -/
lemma Agree.step (hfp : S.fp.eq = F64.ieeeEq) (h : Agree S s d) {c : Call} (hc : Fits S s c) :
    Agree S (s.step S c) (d.step S c) := by
  have hnone : ∀ i : ℕ, s.tables[i]? = none → d.maps[i]? = none := by
    intro i hi
    rw [List.getElem?_eq_none_iff] at hi ⊢
    rwa [← h.length]
  cases c with
  | make kind =>
    exact h.push ⟨hc, fun i w hw => by simp [Hashtable.new] at hw,
      Assoc.represents_nil⟩
  | copy i =>
    cases ht : s.tables[i]? with
    | none =>
      simp only [Session.step, Ideal.step, ht, hnone i ht]
      exact ⟨by rw [h.answers], h.length, h.refines⟩
    | some t =>
      obtain ⟨m, hm, hr⟩ := h.refines i t ht
      simp only [Session.step, Ideal.step, ht, hm]
      have htomb : bHashtableCopy t = t := by
        rw [bHashtableCopy, show (fun _ => none) = t.tombstones from
          funext fun j => (hc t ht j).symm]
      rw [htomb]
      exact h.push hr
  | op i op =>
    cases ht : s.tables[i]? with
    | none =>
      simp only [Session.step, Ideal.step, ht, hnone i ht, Option.bind_none]
      exact ⟨by rw [h.answers], h.length, h.refines⟩
    | some t =>
      obtain ⟨m, hm, hr⟩ := h.refines i t ht
      obtain ⟨t', hrun, hkind, hr'⟩ := hr.runOp hfp (hc t ht)
      simp only [Session.step, Ideal.step, ht, hm, Option.bind_some, hrun]
      have hlen := (List.getElem?_eq_some_iff.1 ht).1
      refine ⟨by rw [h.answers], by simp [h.length], fun j t1 ht1 => ?_⟩
      by_cases hji : i = j
      · subst hji
        rw [List.getElem?_set_self hlen, Option.some.injEq] at ht1
        subst ht1
        exact ⟨_, by rw [List.getElem?_set_self (h.length ▸ hlen), hkind], hr'⟩
      · rw [List.getElem?_set_ne hji] at ht1 ⊢
        exact h.refines j t1 ht1

lemma Agree.run (hfp : S.fp.eq = F64.ieeeEq) (h : Agree S s d) {calls : List Call}
    (hcalls : Actions.Allowed (Session.step S) (Fits S) s calls) :
    Agree S (Actions.run (Session.step S) calls s) (Actions.run (Ideal.step S) calls d) := by
  induction calls generalizing s d with
  | nil => exact h
  | cons c calls ih => exact ih (h.step hfp hcalls.1) hcalls.2

end Runs

/-- Arithmetic that compares doubles as IEEE 754 does, no objects, and the hasher of the standard
library. -/
def Setting.plain : Setting :=
  ⟨{ FlonumOps.coarse with eq := F64.ieeeEq }, [], SipHash.digest, 100⟩

end CrabScheme.Data
