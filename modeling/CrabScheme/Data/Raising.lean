import CrabScheme.Data.Hashtable

/-!
# Hashtables whose procedures raise

The builtins of the walker call the hash and equivalence procedures of a custom table, and these
may raise a condition. The builtins are run here on a table together with a state of the user's
procedures; both stay as they are when an operation fails. A procedure may do anything with its
own state but does not operate on the table.

All calls come before the first change of the table, except in `hashtable-delete!`: it removes the
entry and then hashes all other keys again to rebuild the index.

## Main results

* `Safe.runOp` — what an operation does, unless it is a deletion that is interrupted.
* `error_atomic_iff` — when an operation that raises leaves the table as it was.
-/

namespace CrabScheme.Data.Raising

/-- Why an operation does not return: a procedure of the user raises, or the builtin panics on a
position past the end of the entries. -/
inductive Failure
  | raised
  | outOfBounds
deriving DecidableEq

/-- `CustomHashFns`, as procedures with a state; `none` is a condition that is raised. -/
structure CustomHashFns (σ : Type) where
  hash : Value → σ → Option Value × σ
  equiv : Value → Value → σ → Option Value × σ

/-- A computation of a builtin, on a table and the state of the user's procedures. -/
abbrev Run (σ α : Type) := ExceptT Failure (StateM (Hashtable × σ)) α

/-- Why a computation has failed, if it has. -/
def failure {σ α : Type} (r : Except Failure α × Hashtable × σ) : Option Failure :=
  match r.1 with
  | .error e => some e
  | .ok _ => none

section Builtins

variable {σ : Type}

/-- `apply_procedure`. -/
def applyProcedure (f : σ → Option Value × σ) : Run σ Value := fun p =>
  match f p.2 with
  | (some v, s) => (.ok v, p.1, s)
  | (none, s) => (.error .raised, p.1, s)

/-- The table is changed. -/
def modifyTable (f : Hashtable → Hashtable) : Run σ Unit := fun p => (.ok (), f p.1, p.2)

/-- The table is read. -/
def getTable : Run σ Hashtable := fun p => (.ok p.1, p)

variable (u : CustomHashFns σ)

/-- `ht_hash_ctx`. -/
def htHashCtx (key : Value) : Run σ UInt64 := do
  return hashWord (← applyProcedure (u.hash key))

/-- The loop of `ht_find_index`. -/
def findInBucket (key : Value) : List ℕ → Run σ (Option ℕ)
  | [] => return none
  | i :: bucket => do
    match (← getTable).items[i]? with
    | none => throw .outOfBounds
    | some kv =>
      if (← applyProcedure (u.equiv kv.1 key)).isTruthy then return some i
      else findInBucket key bucket

/-- `ht_find_index`. -/
def htFindIndex (key : Value) : Run σ (Option ℕ) := do
  let hash ← htHashCtx u key
  findInBucket u key ((← getTable).index hash)

/-- The loop of `ht_reindex_all`. -/
def rehash : List (Value × ℕ) → (UInt64 → List ℕ) → Run σ (UInt64 → List ℕ)
  | [], index => return index
  | (k, i) :: rest, index => do
    let hash ← htHashCtx u k
    rehash rest (Assoc.indexInsert index hash i)

/-- `ht_reindex_all`. -/
def htReindexAll : Run σ Unit := do
  let index ← rehash u (← getTable).keys.zipIdx fun _ => []
  modifyTable fun t => { t with index := index }

/-- An entry is added with its position in the index; the answer is the position. -/
def insertItem (key v : Value) : Run σ ℕ := do
  let hash ← htHashCtx u key
  let idx := (← getTable).items.length
  modifyTable fun t => { t.pushItem key v with index := Assoc.indexInsert t.index hash idx }
  return idx

/-- An entry is written, or added. -/
def writeFound (key v : Value) : Option ℕ → Run σ ℕ
  | some i => do
    modifyTable (·.setValueAt i v)
    return i
  | none => insertItem u key v

/-- The answer of `hashtable-ref` for a position, or without one. -/
def readFound (alive : Value → Bool) (default : Value) (found : Option ℕ) : Run σ Value :=
  fun p => (.ok (refFound alive p.1 default found).2, (refFound alive p.1 default found).1, p.2)

/-- `hashtable-set!`. -/
def bHashtableSet (key v : Value) (breaks : Bool) : Run σ Value := do
  let written ← writeFound u key v (← htFindIndex u key)
  modifyTable fun t =>
    if breaks && !Gc.valueIsAcyclicLeaf v then t.breakValueCycle written else t
  return .unspecified

/-- `hashtable-ref`. -/
def bHashtableRef (alive : Value → Bool) (key default : Value) : Run σ Value := do
  readFound alive default (← htFindIndex u key)

/-- `hashtable-delete!`. -/
def bHashtableDelete (key : Value) : Run σ Value := do
  match ← htFindIndex u key with
  | some i =>
    modifyTable (·.swapRemoveItem i)
    htReindexAll u
    return .unspecified
  | none => return .unspecified

/-- `hashtable-update!`. -/
def bHashtableUpdate (alive : Value → Bool) (key : Value) (proc : Value → σ → Option Value × σ)
    (default : Value) : Run σ Value := do
  let current ← readFound alive default (← htFindIndex u key)
  let v ← applyProcedure (proc current)
  let _ ← writeFound u key v (← htFindIndex u key)
  return .unspecified

/-- The operations. -/
inductive Op (σ : Type)
  | set (key v : Value) (breaks : Bool)
  | ref (alive : Value → Bool) (key default : Value)
  | delete (key : Value)
  | update (alive : Value → Bool) (key : Value) (proc : Value → σ → Option Value × σ)
      (default : Value)

/-- An operation. -/
def runOp : Op σ → Run σ Value
  | .set key v breaks => bHashtableSet u key v breaks
  | .ref alive key default => bHashtableRef u alive key default
  | .delete key => bHashtableDelete u key
  | .update alive key proc default => bHashtableUpdate u alive key proc default

/-- Operations one after another, whether or not they fail. -/
def runAll : List (Op σ) → Hashtable × σ → Hashtable × σ
  | [], p => p
  | op :: ops, p => runAll ops (runOp u op p).2

/-- **A deletion that is interrupted**: it finds the key, and the hash procedure raises on one of
the keys that are left. -/
def Interrupted (p : Hashtable × σ) : Op σ → Prop
  | .delete key => ∃ i p', htFindIndex u key p = (.ok (some i), p') ∧
      failure (htReindexAll u (p'.1.swapRemoveItem i, p'.2)) = some .raised
  | _ => False

/-- No deletion is interrupted. -/
def Uninterrupted : List (Op σ) → Hashtable × σ → Prop
  | [], _ => True
  | op :: ops, p => ¬ Interrupted u p op ∧ Uninterrupted ops (runOp u op p).2

/-- **The index mirrors the entries**: the positions of all entries stand in it, each under the
hash its key had. -/
def Mirrored (t : Hashtable) : Prop :=
  ∃ words : List UInt64, words.length = t.items.length ∧ Assoc.Mirrors id words t.index

/-- Two tables with the same entries and index, of which the same values are read. -/
structure Alike (t t' : Hashtable) : Prop where
  items : t'.items = t.items
  index : t'.index = t.index
  reads : ∀ alive i, (t'.valueAt alive i).map Prod.fst = (t.valueAt alive i).map Prod.fst

/-- **A table that an operation has left as it was**: the same entries with the same values, an
index that mirrors them, and no later operation panics as long as no deletion is interrupted. -/
structure Unharmed (t t' : Hashtable) : Prop extends Alike t t' where
  mirrored : Mirrored t'
  bounded : ∀ ops s, Uninterrupted u ops (t', s) → ∀ op,
    failure (runOp u op (runAll u ops (t', s))) ≠ some .outOfBounds

end Builtins

/-! ### Computations that keep the table -/

section Rules

variable {σ α β : Type} {u : CustomHashFns σ} {t t' : Hashtable}

lemma Alike.refl (t : Hashtable) : Alike t t := ⟨rfl, rfl, fun _ _ => rfl⟩

lemma Alike.trans {t'' : Hashtable} (h : Alike t t') (h' : Alike t' t'') : Alike t t'' :=
  ⟨h'.items.trans h.items, h'.index.trans h.index,
    fun alive i => (h'.reads alive i).trans (h.reads alive i)⟩

lemma Alike.mirrored (h : Alike t t') (ht : Mirrored t) : Mirrored t' := by
  unfold Mirrored
  rw [h.items, h.index]
  exact ht

/-- A computation that keeps the table whatever it answers, and does not panic if the index mirrors
the entries. -/
def Reads (x : Run σ α) : Prop := ∀ p, Alike p.1 (x p).2.1 ∧
  (Mirrored p.1 → failure (x p) ≠ some .outOfBounds)

/-- **What operations do**: on a table whose index mirrors its entries they do not panic, if they
raise then the table is as before, and the index mirrors the entries in the end. -/
def Safe (x : Run σ α) : Prop := ∀ p, Mirrored p.1 → failure (x p) ≠ some .outOfBounds ∧
  (failure (x p) = some .raised → Alike p.1 (x p).2.1) ∧ Mirrored (x p).2.1

lemma run_bind (x : Run σ α) (f : α → Run σ β) (p : Hashtable × σ) :
    (x >>= f) p =
      match x p with
      | (.ok a, p') => f a p'
      | (.error e, p') => (.error e, p') := by
  simp only [bind, ExceptT.bind, ExceptT.mk, StateT.bind]
  rcases x p with ⟨_ | _, _⟩ <;> rfl

variable {x : Run σ α} {f : α → Run σ β} {i : ℕ}

lemma Reads.bind (hx : Reads x) (hf : ∀ a, Reads (f a)) : Reads (x >>= f) := by
  intro p
  obtain ⟨hp, hs⟩ := hx p
  rw [run_bind]
  generalize x p = q at hp hs
  obtain ⟨e | a, p'⟩ := q
  · exact ⟨hp, hs⟩
  · exact ⟨hp.trans (hf a p').1, fun hm => (hf a p').2 (hp.mirrored hm)⟩

lemma Safe.bind (hx : Reads x) (hf : ∀ a, Safe (f a)) : Safe (x >>= f) := by
  intro p hm
  obtain ⟨hp, hs⟩ := hx p
  rw [run_bind]
  generalize x p = q at hp hs
  obtain ⟨e | a, p'⟩ := q
  · exact ⟨hs hm, fun _ => hp,
      hp.mirrored hm⟩
  · obtain ⟨h1, h2, h3⟩ := hf a p' (hp.mirrored hm)
    exact ⟨h1, fun he => hp.trans (h2 he), h3⟩

lemma Safe.finish (hx : Safe x)
    (hf : ∀ a p, Mirrored p.1 → failure (f a p) = none ∧ Mirrored (f a p).2.1) :
    Safe (x >>= f) := by
  intro p hm
  have hs := hx p hm
  rw [run_bind]
  generalize x p = q at hs
  obtain ⟨e | a, p'⟩ := q
  · exact ⟨hs.1, hs.2.1, hs.2.2⟩
  · obtain ⟨hb, h3⟩ := hf a p' hs.2.2
    exact ⟨by simp [hb], by simp [hb], h3⟩

variable {p p' : Hashtable × σ}

lemma reads_pure (a : α) : Reads (pure a : Run σ α) := fun _ => ⟨.refl _, nofun⟩

lemma reads_applyProcedure (f : σ → Option Value × σ) : Reads (applyProcedure f) := by
  intro p
  unfold applyProcedure
  split
  · exact ⟨.refl _, nofun⟩
  · exact ⟨.refl _, fun _ => nofun⟩

lemma reads_htHashCtx (key : Value) : Reads (htHashCtx u key) :=
  (reads_applyProcedure _).bind fun _ => reads_pure _

lemma htHashCtx_eq (key : Value) (p : Hashtable × σ) :
    htHashCtx u key p =
      match u.hash key p.2 with
      | (some v, s) => (.ok (hashWord v), p.1, s)
      | (none, s) => (.error .raised, p.1, s) := by
  rw [htHashCtx, run_bind, applyProcedure]
  rcases u.hash key p.2 with ⟨_ | _, _⟩ <;> rfl

lemma Mirrored.lt_of_mem {w : UInt64} (hm : Mirrored t) (hi : i ∈ t.index w) :
    i < t.items.length := by
  obtain ⟨words, hlen, hwords⟩ := hm
  obtain ⟨k, hk, -⟩ := hwords.mem_iff.1 hi
  exact hlen ▸ (List.getElem?_eq_some_iff.1 hk).1

/-- The search keeps the table, what it finds is the position of an entry, and it panics only on a
position past the end. -/
lemma findInBucket_spec (key : Value) (bucket : List ℕ) (p : Hashtable × σ) :
    (findInBucket u key bucket p).2.1 = p.1 ∧
      (∀ i, (findInBucket u key bucket p).1 = .ok (some i) → i < p.1.items.length) ∧
      ((∀ i ∈ bucket, i < p.1.items.length) →
        failure (findInBucket u key bucket p) ≠ some .outOfBounds) := by
  induction bucket generalizing p with
  | nil => exact ⟨rfl, nofun, nofun⟩
  | cons i bucket ih =>
    rw [findInBucket, run_bind]
    dsimp only [getTable]
    cases hi : p.1.items[i]? with
    | none =>
      refine ⟨rfl, nofun, fun hb => absurd (hb i List.mem_cons_self) ?_⟩
      exact not_lt.2 (List.getElem?_eq_none_iff.1 hi)
    | some kv =>
      dsimp only
      rw [run_bind, applyProcedure]
      rcases u.equiv kv.1 key p.2 with ⟨_ | v, s⟩
      · exact ⟨rfl, nofun, fun _ => nofun⟩
      · dsimp only
        split
        · refine ⟨rfl, fun j hj => ?_, nofun⟩
          cases hj
          exact (List.getElem?_eq_some_iff.1 hi).1
        · obtain ⟨h1, h2, h3⟩ := ih (p.1, s)
          exact ⟨h1, h2, fun hb => h3 fun j hj => hb j (List.mem_cons_of_mem i hj)⟩

lemma htFindIndex_spec (key : Value) (p : Hashtable × σ) :
    (htFindIndex u key p).2.1 = p.1 ∧
      (∀ i, (htFindIndex u key p).1 = .ok (some i) → i < p.1.items.length) ∧
      (Mirrored p.1 → failure (htFindIndex u key p) ≠ some .outOfBounds) := by
  rw [htFindIndex, run_bind, htHashCtx_eq]
  rcases u.hash key p.2 with ⟨_ | v, s⟩
  · exact ⟨rfl, nofun, fun _ => nofun⟩
  · obtain ⟨h1, h2, h3⟩ := findInBucket_spec key (p.1.index (hashWord v)) (p.1, s)
    exact ⟨h1, h2, fun hm => h3 fun i hi => hm.lt_of_mem hi⟩

lemma reads_htFindIndex (key : Value) : Reads (htFindIndex u key) := fun p =>
  ⟨(htFindIndex_spec key p).1 ▸ .refl _, (htFindIndex_spec key p).2.2⟩

/-! ### Operations -/

lemma mirrors_push {words : List UInt64} {index : UInt64 → List ℕ}
    (h : Assoc.Mirrors id words index) (w : UInt64) :
    Assoc.Mirrors id (words ++ [w]) (Assoc.indexInsert index w words.length) := by
  intro w'
  have hrest : (List.range words.length).filter
      (fun i => (words ++ [w])[i]?.map id = some w') = index w' := by
    rw [h w']
    refine List.filter_congr fun i hi => ?_
    rw [List.getElem?_append_left (List.mem_range.1 hi)]
  rw [List.length_append, List.length_singleton, List.range_succ, List.filter_append, hrest,
    Assoc.indexInsert]
  by_cases hw : w' = w
  · simp [hw]
  · simp [hw, Ne.symm hw]

lemma Mirrored.of_length (hm : Mirrored t) (hlen : t'.items.length = t.items.length)
    (hindex : t'.index = t.index) : Mirrored t' := by
  obtain ⟨words, hwords, hmirrors⟩ := hm
  exact ⟨words, hwords.trans hlen.symm, hindex ▸ hmirrors⟩

lemma safe_writeFound (key v : Value) (found : Option ℕ) : Safe (writeFound u key v found) := by
  cases found with
  | some i =>
    intro p hm
    refine ⟨nofun, nofun, hm.of_length ?_ rfl⟩
    exact List.length_modify _ _ _
  | none =>
    refine .bind (reads_htHashCtx key) fun w p hm => ⟨nofun, nofun, ?_⟩
    obtain ⟨words, hlen, hwords⟩ := hm
    change Mirrored { p.1.pushItem key v with
      index := Assoc.indexInsert p.1.index w p.1.items.length }
    rw [← hlen]
    exact ⟨words ++ [w], by simp [Hashtable.pushItem, hlen], mirrors_push hwords w⟩

lemma alike_valueAt {alive : Value → Bool} {v : Value} (h : t.valueAt alive i = some (v, t'))
    : Alike t t' := by
  unfold Hashtable.valueAt at h
  cases hi : t.items[i]? with
  | none => simp [hi] at h
  | some kv =>
    simp only [hi] at h
    split at h
    · -- a tombstone is dropped where the value of the entry is read anyway
      rename_i hraw
      cases h
      refine ⟨rfl, rfl, fun alive j => ?_⟩
      by_cases hj : j = i
      · subst hj
        simp [Hashtable.valueAt, hi, hraw]
      · simp [Hashtable.valueAt, hj]
        rcases t.items[j]? with _ | ⟨k, v⟩
        · rfl
        · rcases t.tombstones j with _ | w <;> by_cases hv : v = .unspecified <;> simp [hv]
    · split at h <;> cases h <;> exact .refl t

lemma reads_readFound (alive : Value → Bool) (default : Value) (found : Option ℕ) :
    Reads (readFound (σ := σ) alive default found) := by
  refine fun p => ⟨?_, nofun⟩
  cases found with
  | none => exact .refl _
  | some i =>
    simp only [readFound, refFound]
    cases hv : p.1.valueAt alive i with
    | none => exact .refl _
    | some r => exact alike_valueAt hv

/-- The index that is built anew mirrors the entries; only a procedure can stop it. -/
lemma rehash_spec (keys : List Value) {words : List UInt64} {index : UInt64 → List ℕ} {n : ℕ}
    (h : Assoc.Mirrors id words index) (hn : words.length = n) (p : Hashtable × σ) :
    (rehash u (keys.zipIdx n) index p).2.1 = p.1 ∧
      failure (rehash u (keys.zipIdx n) index p) ≠ some .outOfBounds ∧
      ∀ index', (rehash u (keys.zipIdx n) index p).1 = .ok index' →
        ∃ words', words'.length = n + keys.length ∧ Assoc.Mirrors id words' index' := by
  subst hn
  induction keys generalizing words index p with
  | nil =>
    refine ⟨rfl, nofun, fun index' heq => ?_⟩
    cases heq
    exact ⟨words, rfl, h⟩
  | cons k keys ih =>
    rw [List.zipIdx_cons, rehash, run_bind, htHashCtx_eq]
    rcases u.hash k p.2 with ⟨_ | v, s⟩
    · exact ⟨rfl, nofun, nofun⟩
    · have hrest := ih (mirrors_push h (hashWord v)) (p.1, s)
      rw [List.length_append, List.length_singleton] at hrest
      refine ⟨hrest.1, hrest.2.1, fun index' heq => ?_⟩
      obtain ⟨words', hlen, hwords'⟩ := hrest.2.2 index' heq
      exact ⟨words', by rw [List.length_cons]; omega, hwords'⟩

lemma htReindexAll_spec (p : Hashtable × σ) :
    failure (htReindexAll u p) ≠ some .outOfBounds ∧
      (htReindexAll u p).2.1.items = p.1.items ∧
      (failure (htReindexAll u p) = none → Mirrored (htReindexAll u p).2.1) := by
  obtain ⟨hk, hs, hok⟩ := rehash_spec p.1.keys Assoc.mirrors_nil rfl p
  have hrun : htReindexAll u p = (rehash u p.1.keys.zipIdx (fun _ => []) >>= fun index =>
      modifyTable fun t => { t with index := index }) p := rfl
  rw [hrun, run_bind]
  generalize rehash u p.1.keys.zipIdx (fun _ => []) p = q at hk hs hok
  obtain ⟨e | index, t, s⟩ := q
  · exact ⟨hs, congrArg _ hk, nofun⟩
  · obtain ⟨words, hlen, hwords⟩ := hok index rfl
    obtain rfl : t = p.1 := hk
    refine ⟨nofun, rfl, fun _ => ⟨words, ?_, hwords⟩⟩
    simpa [Hashtable.keys, modifyTable] using hlen

lemma length_swapRemoveItem (hi : i < t.items.length) :
    (t.swapRemoveItem i).items.length = t.items.length - 1 := by
  rw [show (t.swapRemoveItem i).items = Assoc.swapRemove t.items i from rfl,
    (Assoc.swapRemove_perm hi).length_eq, List.length_eraseIdx_of_lt hi]

/-- **A deletion**: it is interrupted and an entry is lost, or it raises and nothing is lost, or
the index mirrors the entries in the end. -/
lemma runOp_delete (key : Value) (hm : Mirrored p.1) :
    (Interrupted u p (.delete key) ∧ failure (runOp u (.delete key) p) = some .raised ∧
        (runOp u (.delete key) p).2.1.items.length + 1 = p.1.items.length) ∨
      ¬ Interrupted u p (.delete key) ∧
        failure (runOp u (.delete key) p) ≠ some .outOfBounds ∧
        (failure (runOp u (.delete key) p) = some .raised →
          (runOp u (.delete key) p).2.1 = p.1) ∧
        Mirrored (runOp u (.delete key) p).2.1 := by
  obtain ⟨hk, hi, hs⟩ := htFindIndex_spec key p
  rw [runOp, bHashtableDelete, run_bind]
  simp only [Interrupted]
  generalize htFindIndex u key p = q at hk hi hs
  obtain ⟨e | _ | i, t, s⟩ := q
  · exact .inr ⟨nofun, hs hm, fun _ => hk, hk ▸ hm⟩
  · exact .inr ⟨nofun, nofun, nofun, hk ▸ hm⟩
  · obtain rfl : t = p.1 := hk
    have hlt := hi i rfl
    have hlen := length_swapRemoveItem hlt
    have hspec := htReindexAll_spec (u := u) (p.1.swapRemoveItem i, s)
    dsimp only
    rw [run_bind]
    dsimp only [modifyTable]
    rw [run_bind]
    generalize hq : htReindexAll u (p.1.swapRemoveItem i, s) = q at hspec
    obtain ⟨e | _, q⟩ := q
    · cases e with
      | outOfBounds => exact absurd rfl hspec.1
      | raised =>
        refine .inl ⟨⟨i, _, rfl, congrArg failure hq⟩, rfl, ?_⟩
        have hitems := congrArg List.length hspec.2.1
        dsimp only at hitems ⊢
        omega
    · refine .inr ⟨?_, nofun, nofun, hspec.2.2 rfl⟩
      rintro ⟨_, _, heq, hraised⟩
      cases heq
      rw [hq] at hraised
      cases hraised

variable (u) in
/-- **What an operation does**, unless it is a deletion that is interrupted. -/
lemma Safe.runOp (op : Op σ) (hm : Mirrored p.1) (hop : ¬ Interrupted u p op) :
    failure (runOp u op p) ≠ some .outOfBounds ∧
      (failure (runOp u op p) = some .raised → Alike p.1 (runOp u op p).2.1) ∧
      Mirrored (runOp u op p).2.1 := by
  cases op with
  | set key v breaks =>
    refine Safe.bind (reads_htFindIndex key) (fun found => (safe_writeFound key v found).finish
      fun i p hm => ⟨rfl, ?_⟩) p hm
    change Mirrored (if breaks && !Gc.valueIsAcyclicLeaf v then p.1.breakValueCycle i else p.1)
    split
    · unfold Hashtable.breakValueCycle
      split
      · exact hm.of_length (List.length_modify _ _ _) rfl
      · exact hm
    · exact hm
  | ref alive key default =>
    obtain ⟨hk, hs⟩ := (reads_htFindIndex key).bind (reads_readFound alive default) p
    exact ⟨hs hm, fun _ => hk, hk.mirrored hm⟩
  | update alive key proc default =>
    exact Safe.bind (reads_htFindIndex key) (fun found => .bind (reads_readFound _ _ _) fun v =>
      .bind (reads_applyProcedure _) fun v => .bind (reads_htFindIndex key) fun found =>
      (safe_writeFound key v found).finish fun _ _ hm => ⟨rfl, hm⟩) p hm
  | delete key =>
    obtain ⟨-, h1, h2, h3⟩ := (runOp_delete key hm).resolve_left fun h => hop h.1
    exact ⟨h1, fun he => h2 he ▸ .refl _, h3⟩

/-- As long as no deletion is interrupted, no operation panics. -/
lemma runAll_bounded {ops : List (Op σ)} (hm : Mirrored p.1) (hops : Uninterrupted u ops p)
    (op : Op σ) : failure (runOp u op (runAll u ops p)) ≠ some .outOfBounds := by
  induction ops generalizing p with
  | nil =>
    by_cases hop : Interrupted u p op
    · cases op with
      | delete key =>
        obtain ⟨-, hraised, -⟩ := (runOp_delete key hm).resolve_right fun h => h.1 hop
        simp [runAll, hraised]
      | _ => exact hop.elim
    · exact (Safe.runOp u op hm hop).1
  | cons op' ops ih => exact ih (Safe.runOp u op' hm hops.1).2.2 hops.2

/-- **An operation that raises leaves the table as it was, unless it is a deletion that is
interrupted.** -/
theorem error_atomic_iff (u : CustomHashFns σ) (t : Hashtable) (s : σ) (op : Op σ)
    (hm : Mirrored t) :
    (failure (runOp u op (t, s)) = some .raised → Unharmed u t (runOp u op (t, s)).2.1) ↔
      ¬ Interrupted u (t, s) op := by
  constructor
  · intro hatomic hop
    cases op with
    | delete key =>
      obtain ⟨-, hraised, hlen⟩ := (runOp_delete key hm).resolve_right
        fun h => h.1 hop
      have hitems := congrArg List.length (hatomic hraised).items
      dsimp only at hlen
      omega
    | _ => exact hop
  · intro hop hraised
    obtain ⟨-, halike, hmirrored⟩ := Safe.runOp u op hm hop
    exact ⟨halike hraised, hmirrored,
      fun ops s' hops op' => runAll_bounded (p := (_, s')) hmirrored hops op'⟩

/-! ### A hash procedure that raises once -/

/-- A hash procedure that counts its calls and raises on the second one; keys are compared by
`eq?`. -/
def raisesOnSecond : CustomHashFns ℕ where
  hash _ n := (if n = 1 then none else some .null, n + 1)
  equiv a b n := (some (.boolean (a.eq b)), n)

/-- A table with two entries in one bucket. -/
def twoEntries : Hashtable where
  kind := .eq
  items := [(.character 'a', .null), (.character 'b', .null)]
  index w := if w = 0 then [0, 1] else []
  tombstones _ := none

lemma mirrored_twoEntries : Mirrored twoEntries := by
  refine ⟨[0, 0], rfl, fun w => ?_⟩
  by_cases hw : w = 0
  · subst hw
    rfl
  · simp [twoEntries, hw, List.range_succ, Ne.symm hw]

/-- The first key is deleted and the hash procedure raises: one entry is left, the index still has
two positions, and a search for a third key panics. -/
theorem interrupted_delete_panics :
    Mirrored twoEntries ∧
      failure (runOp raisesOnSecond (.delete (.character 'a')) (twoEntries, 0)) = some .raised ∧
      (runOp raisesOnSecond (.delete (.character 'a')) (twoEntries, 0)).2.1.items =
        [(.character 'b', .null)] ∧
      failure (runOp raisesOnSecond (.ref (fun _ => true) (.character 'c') .null)
        (runOp raisesOnSecond (.delete (.character 'a')) (twoEntries, 0)).2) = some .outOfBounds :=
  ⟨mirrored_twoEntries, rfl, rfl, rfl⟩

/-- An insertion during which the hash procedure raises leaves the table as it was. -/
theorem error_atomic_iff_set :
    failure (runOp raisesOnSecond (.set (.character 'c') .null false) (twoEntries, 1)) =
        some .raised ∧
      Unharmed raisesOnSecond twoEntries
        (runOp raisesOnSecond (.set (.character 'c') .null false) (twoEntries, 1)).2.1 :=
  ⟨rfl, (error_atomic_iff raisesOnSecond twoEntries 1 (.set (.character 'c') .null false)
    mirrored_twoEntries).2 id rfl⟩

end Rules

end CrabScheme.Data.Raising
