import CrabScheme.Vm.Recode

/-!
# Compaction of marked code

Constant folding and dead-set cancellation mark windows of three instructions, of which the first
survives, and compact what is left. The position of a surviving instruction in the compacted code
is the number of survivors before it, so that a branch to a survivor is remapped correctly; a
branch to the second or third instruction of a window is not, and skips what the window still has
to do.

## Main results

* `Marked.recoding` — compaction, when no branch lands inside a window.
-/

namespace CrabScheme

open Transition

/-! ## Marks -/

/-- A window of three instructions and the one it is rewritten to. -/
def Rewriting := Inst → Inst → Inst → Inst → Prop

/-- Constant folding: two constants and an operation become a constant of the new pool. -/
def foldRewriting (newConsts oldConsts : List Value) : Rewriting := fun i j k i' =>
  ∃ idx v, i' = .const idx ∧ newConsts[idx]? = some v ∧ foldWindow oldConsts i j k = some v

/-- Dead-set cancellation: the assignment remains. -/
def deadSetRewriting (consts : List Value) : Rewriting := fun i j k i' =>
  i' = i ∧ deadSetWindow consts i j k = true

/-- **The marks of a scan**: an instruction is kept, or a window of three is rewritten. -/
inductive Marked (W : Rewriting) : List Inst → List (Option Inst) → Prop
  | nil : Marked W [] []
  | keep {i : Inst} {is : List Inst} {ms : List (Option Inst)} : Marked W is ms →
      Marked W (i :: is) (some i :: ms)
  | window {i j k i' : Inst} {is : List Inst} {ms : List (Option Inst)} : W i j k i' →
      Marked W is ms → Marked W (i :: j :: k :: is) (some i' :: none :: none :: ms)

/-- Three instructions in a row. -/
structure TripleAt (insts : List Inst) (j : ℕ) (i₁ i₂ i₃ : Inst) : Prop where
  fst : insts[j]? = some i₁
  snd : insts[j + 1]? = some i₂
  thd : insts[j + 2]? = some i₃

lemma TripleAt.append {insts : List Inst} {j : ℕ} {i1 i2 i3 : Inst}
    (h : TripleAt insts j i1 i2 i3) (front : List Inst) :
    TripleAt (front ++ insts) (front.length + j) i1 i2 i3 := by
  have hget : ∀ k, (front ++ insts)[front.length + j + k]? = insts[j + k]? := by
    intro k
    rw [Nat.add_assoc, List.getElem?_append_right (by omega), Nat.add_sub_cancel_left]
  exact ⟨(hget 0).trans h.fst, (hget 1).trans h.snd, (hget 2).trans h.thd⟩

/-- The survivor at a position: it is kept, or stands for a window. -/
inductive SurvivorAt (W : Rewriting) (insts : List Inst) (marks : List (Option Inst)) (o : ℕ)
    (i : Inst) : Prop
  | keep : insts[o]? = some i → marks[o + 1]? ≠ some none → SurvivorAt W insts marks o i
  | window {i₁ i₂ i₃ : Inst} : W i₁ i₂ i₃ i → TripleAt insts o i₁ i₂ i₃ →
      marks[o + 1]? = some none → marks[o + 2]? = some none → marks[o + 3]? ≠ some none →
      SurvivorAt W insts marks o i

variable {o t n : ℕ} {i : Inst}

namespace Marked

variable {W : Rewriting} {insts : List Inst} {marks : List (Option Inst)}

lemma length_eq (h : Marked W insts marks) : marks.length = insts.length := by
  induction h with
  | nil => rfl
  | keep _ ih => rw [List.length_cons, List.length_cons, ih]
  | window _ _ ih => simp only [List.length_cons, ih]

lemma keep_all (insts : List Inst) : Marked W insts (insts.map some) := by
  induction insts with
  | nil => exact .nil
  | cons i is ih => exact .keep ih

lemma head_survives (h : Marked W insts marks) : marks[0]? ≠ some none := by
  cases h <;> simp

lemma survivorAt (h : Marked W insts marks) (ho : marks[o]? = some (some i))
    : SurvivorAt W insts marks o i := by
  -- a position further on is a position of the remaining instructions
  have shift : ∀ {is ms o p q}, SurvivorAt W is ms o i → p.length = q.length →
      SurvivorAt W (p ++ is) (q ++ ms) (p.length + o) i := by
    intro is ms o p q hs hlen
    have hq : ∀ k, (q ++ ms)[p.length + o + k]? = ms[o + k]? := by
      intro k
      rw [Nat.add_assoc, hlen, List.getElem?_append_right (by omega), Nat.add_sub_cancel_left]
    cases hs with
    | keep h1 h2 =>
      refine .keep ?_ ((hq 1).symm ▸ h2)
      rw [List.getElem?_append_right (by omega), Nat.add_sub_cancel_left]
      exact h1
    | window hw ht m1 m2 m3 =>
      exact .window hw (ht.append p) ((hq 1).trans m1) ((hq 2).trans m2) ((hq 3).symm ▸ m3)
  induction h generalizing o with
  | nil => cases ho
  | @keep i' is ms h ih =>
    cases o with
    | zero =>
      cases ho
      exact .keep rfl h.head_survives
    | succ o =>
      rw [Nat.add_comm o 1]
      exact shift (p := [i']) (q := [some i']) (ih ho) rfl
  | @window i1 i2 i3 i' is ms hw h ih =>
    match o with
    | 0 =>
      cases ho
      exact .window hw ⟨rfl, rfl, rfl⟩ rfl rfl h.head_survives
    | 1 => cases ho
    | 2 => cases ho
    | o + 3 =>
      rw [Nat.add_comm o 3]
      exact shift (p := [i1, i2, i3]) (q := [some i', none, none]) (ih ho) rfl

lemma exists_window (h : Marked W insts marks) (ht : marks[t]? = some none) :
    ∃ j i1 i2 i3 i', TripleAt insts j i1 i2 i3 ∧ W i1 i2 i3 i' ∧ (t = j + 1 ∨ t = j + 2) := by
  induction h generalizing t with
  | nil => cases ht
  | @keep i is ms _ ih =>
    cases t with
    | zero => cases ht
    | succ t =>
      obtain ⟨j, i1, i2, i3, i', htr, hw, hcase⟩ := ih ht
      exact ⟨1 + j, i1, i2, i3, i', htr.append [i], hw, by omega⟩
  | @window i1 i2 i3 i' is ms hw _ ih =>
    match t with
    | 0 => cases ht
    | 1 => exact ⟨0, i1, i2, i3, i', ⟨rfl, rfl, rfl⟩, hw, .inl rfl⟩
    | 2 => exact ⟨0, i1, i2, i3, i', ⟨rfl, rfl, rfl⟩, hw, .inr rfl⟩
    | t + 3 =>
      obtain ⟨j, a, b, c, d, htr, hw', hcase⟩ := ih ht
      exact ⟨3 + j, a, b, c, d, htr.append [i1, i2, i3], hw', by omega⟩

end Marked

/-! ## Positions after compaction -/

section Positions

variable {marks : List (Option Inst)}

lemma oldToNew_of_kept (h : marks[o]? = some (some i)) :
    oldToNew marks (o + 1) = oldToNew marks o + 1 := by
  simp [oldToNew, List.take_add_one, h]

lemma oldToNew_of_deleted (h : marks[o]? = some none) :
    oldToNew marks (o + 1) = oldToNew marks o := by
  simp [oldToNew, List.take_add_one, h]

lemma oldToNew_mono (h : o ≤ t) : oldToNew marks o ≤ oldToNew marks t :=
  (List.take_sublist_take_left h).countP_le

lemma exists_survivor (ho : o < marks.length) (h : marks[o]? ≠ some none) :
    ∃ i, marks[o]? = some (some i) := by
  rw [List.getElem?_eq_getElem ho] at h ⊢
  cases hm : marks[o] with
  | none => exact absurd (congrArg some hm) h
  | some i => exact ⟨i, rfl⟩

lemma oldToNew_inj {j : Inst} (ho : marks[o]? = some (some i)) (ht : marks[t]? = some (some j))
    (h : oldToNew marks o = oldToNew marks t) : o = t := by
  have hlt : ∀ {a b : ℕ} {k : Inst}, marks[a]? = some (some k) →
      oldToNew marks a = oldToNew marks b → ¬ a < b := by
    intro a b k ha hab hlt
    have h1 := oldToNew_of_kept ha
    have h2 : oldToNew marks (a + 1) ≤ oldToNew marks b := oldToNew_mono hlt
    omega
  have h1 := hlt ho h
  have h2 := hlt ht h.symm
  omega

lemma oldToNew_of_length_le (h : marks.length ≤ t) :
    oldToNew marks t = marks.reduceOption.length := by
  rw [oldToNew, List.take_of_length_le h, List.reduceOption_length_eq, List.countP_eq_length_filter]

lemma reduceOption_getElem? (h : marks[o]? = some (some i)) :
    marks.reduceOption[oldToNew marks o]? = some i := by
  induction marks generalizing o with
  | nil => cases h
  | cons m ms ih =>
    cases o with
    | zero =>
      cases h
      rfl
    | succ o =>
      have hrec := ih h
      cases m with
      | none => simpa [oldToNew] using hrec
      | some j => simpa [oldToNew] using hrec

lemma exists_of_reduceOption (h : marks.reduceOption[n]? = some i) :
    ∃ o, marks[o]? = some (some i) ∧ oldToNew marks o = n := by
  induction marks generalizing n with
  | nil => cases h
  | cons m ms ih =>
    cases m with
    | none =>
      obtain ⟨o, ho, hn⟩ := ih (by simpa using h)
      exact ⟨o + 1, ho, by simpa [oldToNew] using hn⟩
    | some j =>
      cases n with
      | zero =>
        cases h
        exact ⟨0, rfl, rfl⟩
      | succ n =>
        obtain ⟨o, ho, hn⟩ := ih (n := n) (by simpa using h)
        exact ⟨o + 1, ho, by simpa [oldToNew] using hn⟩

/-- Where a target moves to: nowhere, when nothing was deleted. -/
def newTarget (marks : List (Option Inst)) : ℕ → ℕ :=
  if marks.all Option.isSome then id else oldToNew marks

lemma compact_eq (marks : List (Option Inst)) :
    compact marks = marks.reduceOption.map (Inst.mapTarget (newTarget marks)) := by
  unfold compact newTarget
  split
  · have : Inst.mapTarget id = id := funext Inst.mapTarget_id
    rw [this, List.map_id]
  · rfl

lemma compact_length (marks : List (Option Inst)) :
    (compact marks).length = marks.reduceOption.length := by
  rw [compact_eq, List.length_map]

/-- **Corresponding positions**: both past the end, or a survivor and where it has moved. -/
def MovedTo (marks : List (Option Inst)) (n o : ℕ) : Prop :=
  marks.length ≤ o ∧ (compact marks).length ≤ n ∨
    o < marks.length ∧ marks[o]? ≠ some none ∧ n = oldToNew marks o

lemma movedTo_oldToNew (h : marks[o]? ≠ some none) : MovedTo marks (oldToNew marks o) o := by
  rcases Nat.lt_or_ge o marks.length with hlt | hge
  · exact .inr ⟨hlt, h, rfl⟩
  · refine .inl ⟨hge, ?_⟩
    rw [oldToNew_of_length_le hge, compact_length]

lemma movedTo_newTarget (h : marks[t]? ≠ some none) : MovedTo marks (newTarget marks t) t := by
  unfold newTarget
  split
  · rename_i hall
    rcases Nat.lt_or_ge t marks.length with hlt | hge
    · refine .inr ⟨hlt, h, ?_⟩
      have hcount : (marks.take t).countP Option.isSome = (marks.take t).length := by
        rw [List.countP_eq_length]
        intro m hm
        exact List.all_eq_true.mp hall m (List.mem_of_mem_take hm)
      rw [oldToNew, hcount, List.length_take, Nat.min_eq_left (Nat.le_of_lt hlt), id]
    · refine .inl ⟨hge, ?_⟩
      rw [compact_length]
      exact (List.reduceOption_length_le marks).trans hge
  · exact movedTo_oldToNew h

end Positions

/-! ## Compaction -/

lemma Inst.inPool_mapTarget (i : Inst) (σ : ℕ → ℕ) (n : ℕ) :
    (i.mapTarget σ).InPool n = i.InPool n := by
  cases i <;> rfl

lemma Inst.branchTarget_mapTarget (i : Inst) (σ : ℕ → ℕ) :
    (i.mapTarget σ).branchTarget = i.branchTarget.map σ := by
  cases i <;> rfl

lemma Inst.mapTarget_back (i : Inst) (σ : ℕ → ℕ) :
    (i.mapTarget σ).mapTarget (fun _ => i.branchTarget.getD 0) = i := by
  cases i <;> rfl

lemma deadSetWindow_eq_true {consts : List Value} {j k : Inst}
    (h : deadSetWindow consts i j k = true) :
    ∃ x idx, i = .setVar x ∧ j = .const idx ∧ k = .pop ∧ consts[idx]? = some .unspecified := by
  unfold deadSetWindow at h
  split at h
  · rename_i x idx
    exact ⟨x, idx, rfl, rfl, rfl, eq_of_beq h⟩
  · cases h

lemma lt_of_getElem?_eq_some {α : Type} {xs : List α} {x : α} (h : xs[n]? = some x) :
    n < xs.length :=
  (List.getElem?_eq_some_iff.mp h).1

lemma movedTo_after_window {marks : List (Option Inst)} (h0 : marks[o]? = some (some i))
    (h1 : marks[o + 1]? = some none) (h2 : marks[o + 2]? = some none)
    (h3 : marks[o + 3]? ≠ some none) : MovedTo marks (oldToNew marks o + 1) (o + 3) := by
  have h := movedTo_oldToNew h3
  rwa [oldToNew_of_deleted h2, oldToNew_of_deleted h1, oldToNew_of_kept h0] at h

section Compact

variable {newConsts oldConsts : List Value} {insts : List Inst} {marks : List (Option Inst)}
variable {W : Rewriting}

/-- Rewritings that a recoding can follow. -/
def Rewriting.Sound (W : Rewriting) (newConsts oldConsts : List Value) : Prop :=
  ∀ i j k i', W i j k i' →
    foldRewriting newConsts oldConsts i j k i' ∨ deadSetRewriting oldConsts i j k i'

lemma Marked.codeMatch (h : Marked W insts marks) (hW : W.Sound newConsts oldConsts)
    (hin : ∀ i ∈ insts, i.InPool oldConsts.length = true)
    (hjump : ∀ i ∈ insts, ∀ t, i.branchTarget = some t → marks[t]? ≠ some none)
    (hpos : MovedTo marks n o) :
    CodeMatch (compact marks) newConsts insts oldConsts (MovedTo marks) n o := by
  rcases hpos with ⟨ho, hn⟩ | ⟨ho, hkept, rfl⟩
  · refine .ended (List.getElem?_eq_none hn) (List.getElem?_eq_none ?_)
    rwa [← h.length_eq]
  · obtain ⟨i, hi⟩ := exists_survivor ho hkept
    have hnew : (compact marks)[oldToNew marks o]? = some (i.mapTarget (newTarget marks)) := by
      rw [compact_eq, List.getElem?_map, reduceOption_getElem? hi]
      rfl
    cases h.survivorAt hi with
    | keep h1 hm1 =>
      have hmem : i ∈ insts := List.mem_of_getElem? h1
      refine .inst hnew ((Inst.mapTarget_back i _).symm ▸ h1) ?_ ?_ ?_
      · rw [Inst.inPool_mapTarget]
        exact hin i hmem
      · intro t' ht'
        rw [Inst.branchTarget_mapTarget] at ht'
        obtain ⟨t, ht, rfl⟩ := Option.map_eq_some_iff.mp ht'
        refine ⟨t, ?_, movedTo_newTarget (hjump i hmem t ht)⟩
        rw [ht]
        exact .refl t
      · rw [← oldToNew_of_kept hi]
        exact movedTo_oldToNew hm1
    | window hw htr hm1 hm2 hm3 =>
      have hafter := movedTo_after_window hi hm1 hm2 hm3
      rcases hW _ _ _ _ hw with ⟨idx, v, rfl, hv, hfold⟩ | ⟨rfl, hdead⟩
      · exact .folded hnew hv htr.fst htr.snd htr.thd hfold hafter
      · obtain ⟨x, idx, rfl, rfl, rfl, hidx⟩ := deadSetWindow_eq_true hdead
        exact .deadSet hnew htr.fst htr.snd htr.thd (lt_of_getElem?_eq_some hidx) hafter

/-- **Compaction is a recoding** when no branch lands on a deleted instruction. -/
def Marked.recoding (h : Marked W insts marks) (hW : W.Sound newConsts oldConsts)
    (hgrown : ∃ more, newConsts = oldConsts ++ more)
    (hin : ∀ i ∈ insts, i.InPool oldConsts.length = true)
    (hjump : ∀ i ∈ insts, ∀ t, i.branchTarget = some t → marks[t]? ≠ some none) : Recoding where
  new := compact marks
  newConsts := newConsts
  old := insts
  oldConsts := oldConsts
  pos := MovedTo marks
  grown := hgrown
  start := movedTo_oldToNew h.head_survives
  matched _ _ hpos := h.codeMatch hW hin hjump hpos

lemma Inst.inPool_mono {m : ℕ} (hnm : n ≤ m) (hi : i.InPool n = true) : i.InPool m = true := by
  cases i with
  | const idx =>
    have hlt : idx < n := by simpa [InPool] using hi
    simpa [InPool] using hlt.trans_le hnm
  | _ => rfl

lemma Marked.compact_inPool (h : Marked W insts marks) (hW : W.Sound newConsts oldConsts)
    (hlen : oldConsts.length ≤ newConsts.length)
    (hin : ∀ i ∈ insts, i.InPool oldConsts.length = true) :
    ∀ i ∈ compact marks, i.InPool newConsts.length = true := by
  intro i' hi'
  rw [compact_eq] at hi'
  obtain ⟨i, hi, rfl⟩ := List.mem_map.mp hi'
  obtain ⟨n, hn⟩ := List.getElem?_of_mem hi
  obtain ⟨o, ho, _⟩ := exists_of_reduceOption hn
  rw [Inst.inPool_mapTarget]
  cases h.survivorAt ho with
  | keep h1 _ => exact Inst.inPool_mono hlen (hin i (List.mem_of_getElem? h1))
  | window hw htr _ _ _ =>
    rcases hW _ _ _ _ hw with ⟨idx, v, rfl, hv, _⟩ | ⟨rfl, _⟩
    · simpa [Inst.InPool] using lt_of_getElem?_eq_some hv
    · exact Inst.inPool_mono hlen (hin _ (List.mem_of_getElem? htr.fst))

end Compact

end CrabScheme
