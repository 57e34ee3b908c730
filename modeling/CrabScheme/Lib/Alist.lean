import Mathlib

/-!
# Association lists

Lists of pairs, read at the first occurrence of a key, with replacement in place and deletion.

## Main results

* `Alist.get_replace`, `Alist.get_delete`, `Alist.nodup_replace`.
-/

namespace Alist

variable {K V : Type*} [DecidableEq K]

/-- The value of the key `k`, if it has one. -/
def get (l : List (K × V)) (k : K) : Option V := l.lookup k

/-- The value of `k` is replaced where it stands, or added at the end. -/
def replace (l : List (K × V)) (k : K) (v : V) : List (K × V) :=
  match l with
  | [] => [(k, v)]
  | (k', v') :: l => if k' = k then (k, v) :: l else (k', v') :: replace l k v

/-- The key `k` is deleted. -/
def delete (l : List (K × V)) (k : K) : List (K × V) :=
  match l with
  | [] => []
  | (k', v') :: l => if k' = k then delete l k else (k', v') :: delete l k

variable {l : List (K × V)} {k : K} {v : V}

lemma get_cons (j k' : K) (v' : V) :
    get ((k', v') :: l) j = if j = k' then some v' else get l j := by
  unfold get
  rw [List.lookup_cons]
  by_cases hj : j = k'
  · simp [hj]
  · simp [beq_eq_false_iff_ne.mpr hj, hj]

lemma get_replace (j : K) :
    get (replace l k v) j = if j = k then some v else get l j := by
  induction l with
  | nil => exact get_cons j k v
  | cons kv l ih =>
    obtain ⟨k', v'⟩ := kv
    unfold replace
    by_cases hk : k' = k
    · subst hk
      rw [if_pos rfl, get_cons, get_cons]
      by_cases hj : j = k' <;> simp [hj]
    · rw [if_neg hk, get_cons, ih, get_cons]
      by_cases hj : j = k' <;> simp [hj, hk]

lemma get_delete (j : K) : get (delete l k) j = if j = k then none else get l j := by
  induction l with
  | nil => simp [delete, get]
  | cons kv l ih =>
    obtain ⟨k', v'⟩ := kv
    unfold delete
    by_cases hk : k' = k
    · subst hk
      rw [if_pos rfl, ih, get_cons]
      by_cases hj : j = k' <;> simp [hj]
    · rw [if_neg hk, get_cons, ih, get_cons]
      by_cases hj : j = k' <;> simp [hj, hk]

lemma keys_replace : (replace l k v).map Prod.fst =
    if k ∈ l.map Prod.fst then l.map Prod.fst else l.map Prod.fst ++ [k] := by
  induction l with
  | nil => simp [replace]
  | cons kv l ih =>
    obtain ⟨k', v'⟩ := kv
    unfold replace
    by_cases hk : k' = k
    · simp [hk]
    · rw [if_neg hk, List.map_cons, ih]
      simp only [List.map_cons, List.mem_cons, Ne.symm hk, false_or]
      split <;> simp

lemma nodup_replace (h : (l.map Prod.fst).Nodup) : ((replace l k v).map Prod.fst).Nodup := by
  rw [keys_replace]
  split
  · exact h
  · next hk => exact h.append (List.nodup_singleton k) (List.disjoint_singleton.mpr hk)

lemma mem_of_get (h : get l k = some v) : (k, v) ∈ l := by
  obtain ⟨l1, l2, rfl, -⟩ := List.lookup_eq_some_iff.mp h
  simp

lemma get_of_mem (hl : (l.map Prod.fst).Nodup) (h : (k, v) ∈ l) : get l k = some v := by
  obtain ⟨l1, l2, rfl⟩ := List.append_of_mem h
  refine List.lookup_eq_some_iff.mpr ⟨l1, l2, rfl, fun p hp => ?_⟩
  rw [List.map_append] at hl
  have hne := List.disjoint_of_nodup_append hl (List.mem_map_of_mem hp)
  rw [bne_iff_ne]
  rintro rfl
  exact hne List.mem_cons_self

end Alist
