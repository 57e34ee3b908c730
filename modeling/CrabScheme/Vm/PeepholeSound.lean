import CrabScheme.Vm.Compaction

/-!
# What the peephole pass preserves

Each part of the pass is a recoding, provided that no branch of the code lands inside a window
the pass rewrites. Jump threading needs no such proviso.

## Main results

* `foldMarks_marked`, `deadSetMarks_marked` — the two scans.
* `threading` — jump threading is a recoding.
* `peephole_indistinguishable` — the whole pass.
-/

namespace CrabScheme

open Transition

/-! ## The scans -/

lemma asFixnumConst_append {consts : List Value} (more : List Value) {i : Inst}
    (hi : i.InPool consts.length = true) :
    asFixnumConst (consts ++ more) i = asFixnumConst consts i := by
  cases i with
  | const idx =>
    have hlt : idx < consts.length := by simpa [Inst.InPool] using hi
    simp only [asFixnumConst, List.getElem?_append_left hlt]
  | _ => rfl

lemma foldWindow_append {consts : List Value} (more : List Value) {i j k : Inst}
    (hi : i.InPool consts.length = true) (hj : j.InPool consts.length = true) :
    foldWindow (consts ++ more) i j k = foldWindow consts i j k := by
  unfold foldWindow
  rw [asFixnumConst_append more hi, asFixnumConst_append more hj]

/-- **The scan for constant operands** marks windows of the pool it started with, and adds the
folded constants to the pool. -/
lemma foldMarks_marked (consts : List Value) (insts : List Inst) (added : List Value)
    (hin : ∀ i ∈ insts, i.InPool consts.length = true) :
    (∃ more, (foldMarks insts (consts ++ added)).2 = consts ++ added ++ more) ∧
      Marked (foldRewriting (foldMarks insts (consts ++ added)).2 consts) insts
        (foldMarks insts (consts ++ added)).1 := by
  generalize hpool : consts ++ added = pool
  induction insts, pool using foldMarks.induct generalizing added with
  | case1 i j k rest pool v hv ih =>
    subst hpool
    obtain ⟨⟨more, hmore⟩, hm⟩ := ih (added ++ [v])
      (fun x hx => hin x (List.mem_cons_of_mem _ (List.mem_cons_of_mem _
        (List.mem_cons_of_mem _ hx)))) (List.append_assoc _ _ _).symm
    rw [foldMarks, hv]
    refine ⟨⟨v :: more, ?_⟩, ?_⟩
    · rw [hmore]
      simp
    · rw [foldWindow_append added (hin i (by simp)) (hin j (by simp))] at hv
      refine .window ⟨_, v, rfl, ?_, hv⟩ hm
      rw [hmore]
      simp
  | case2 i j k rest pool hv ih =>
    subst hpool
    obtain ⟨hmore, hm⟩ := ih added (fun x hx => hin x (List.mem_cons_of_mem _ hx)) rfl
    rw [foldMarks, hv]
    exact ⟨hmore, .keep hm⟩
  | case3 insts pool hshort =>
    rw [foldMarks]
    · exact ⟨⟨[], (List.append_nil _).symm⟩, .keep_all _⟩
    · exact hshort

/-- **The scan for dead assignments.** -/
lemma deadSetMarks_marked (consts : List Value) (insts : List Inst) :
    Marked (deadSetRewriting consts) insts (deadSetMarks consts insts) := by
  fun_induction deadSetMarks consts insts with
  | case1 i j k rest hw ih => exact .window ⟨rfl, hw⟩ ih
  | case2 i j k rest hw ih => exact .keep ih
  | case3 insts hshort => exact .keep_all insts

/-! ## Jump threading -/

/-- An instruction with its target moved along a chain of jumps. -/
def Redirected (old : List Inst) (i i' : Inst) : Prop :=
  ∃ σ, i' = i.mapTarget σ ∧ ∀ t, i.branchTarget = some t → Hops old t (σ t)

lemma Redirected.refl (old : List Inst) (i : Inst) : Redirected old i i :=
  ⟨id, i.mapTarget_id.symm, fun t _ => .refl t⟩

lemma forall₂_modify_right {α β : Type} {r : α → β → Prop} {f : β → β} {xs : List α} {ys : List β}
    (h : List.Forall₂ r xs ys) (n : ℕ) (hf : ∀ x y, r x y → r x (f y)) :
    List.Forall₂ r xs (ys.modify n f) := by
  induction h generalizing n with
  | nil =>
    rw [List.modify_nil]
    exact .nil
  | cons hxy hrest ih =>
    cases n with
    | zero => exact .cons (hf _ _ hxy) hrest
    | succ n => exact .cons hxy (ih n)

lemma hops_chaseJumps {old cur : List Inst} (h : List.Forall₂ (Redirected old) old cur)
    (hops t : ℕ) : Hops old t (chaseJumps cur hops t) := by
  induction hops generalizing t with
  | zero => exact .refl t
  | succ hops ih =>
    rw [chaseJumps]
    split
    · rename_i t' ht'
      split
      · exact .refl t
      · have hrel := forall₂_getElem? h t
        rw [ht'] at hrel
        cases hold : old[t]? with
        | none => rw [hold] at hrel; cases hrel
        | some i =>
          rw [hold] at hrel
          cases hrel with
          | some hred =>
            obtain ⟨σ, hi, hσ⟩ := hred
            cases i with
            | jump t0 =>
              cases hi
              exact .jump hold ((hσ t0 rfl).trans (ih _))
            | _ => cases hi
    · exact .refl t

lemma threadAt_redirected {old cur : List Inst} (h : List.Forall₂ (Redirected old) old cur)
    (n : ℕ) : List.Forall₂ (Redirected old) old (threadAt cur n) := by
  have hmove : ∀ {i c : Inst}, Redirected old i c →
      Redirected old i (c.mapTarget (chaseJumps cur (cur.length + 1))) := by
    rintro i _ ⟨σ, rfl, hσ⟩
    refine ⟨chaseJumps cur (cur.length + 1) ∘ σ, ?_, ?_⟩
    · cases i <;> rfl
    · intro t ht
      exact (hσ t ht).trans (hops_chaseJumps h _ _)
  exact forall₂_modify_right h n fun _ _ => hmove

lemma threadJumps_redirected (insts : List Inst) :
    List.Forall₂ (Redirected insts) insts (threadJumps insts) := by
  have hfold : ∀ (ns : List ℕ) (cur : List Inst), List.Forall₂ (Redirected insts) insts cur →
      List.Forall₂ (Redirected insts) insts (ns.foldl threadAt cur) := by
    intro ns
    induction ns with
    | nil => exact fun cur h => h
    | cons n ns ih => exact fun cur h => ih _ (threadAt_redirected h n)
  exact hfold _ _ (List.forall₂_same.mpr fun i _ => .refl _ i)

/-- **Jump threading is a recoding**: every position stays where it is. -/
def threading (insts : List Inst) (consts : List Value)
    (hin : ∀ i ∈ insts, i.InPool consts.length = true) : Recoding where
  new := threadJumps insts
  newConsts := consts
  old := insts
  oldConsts := consts
  pos n o := n = o
  grown := ⟨[], (List.append_nil _).symm⟩
  start := rfl
  matched := by
    rintro n _ rfl
    have hrel := forall₂_getElem? (threadJumps_redirected insts) n
    cases hold : insts[n]? with
    | none =>
      rw [hold] at hrel
      cases hnew : (threadJumps insts)[n]? with
      | none => exact .ended hnew hold
      | some i' => rw [hnew] at hrel; cases hrel
    | some i =>
      rw [hold] at hrel
      cases hnew : (threadJumps insts)[n]? with
      | none => rw [hnew] at hrel; cases hrel
      | some i' =>
        rw [hnew] at hrel
        cases hrel with
        | some hred =>
          obtain ⟨σ, rfl, hσ⟩ := hred
          refine .inst hnew ((Inst.mapTarget_back i σ).symm ▸ hold) ?_ ?_ rfl
          · rw [Inst.inPool_mapTarget]
            exact hin i (List.mem_of_getElem? hold)
          · intro t' ht'
            rw [Inst.branchTarget_mapTarget] at ht'
            obtain ⟨t, ht, rfl⟩ := Option.map_eq_some_iff.mp ht'
            refine ⟨σ t, ?_, rfl⟩
            rw [ht]
            exact hσ t ht

/-! ## Branches into windows -/

/-- Whether a scan rewrites the three instructions from `j` on. -/
def windowAt (consts : List Value) (insts : List Inst) (j : ℕ) : Bool :=
  match insts[j]?, insts[j + 1]?, insts[j + 2]? with
  | some i₁, some i₂, some i₃ =>
    (foldWindow consts i₁ i₂ i₃).isSome || deadSetWindow consts i₁ i₂ i₃
  | _, _, _ => false

/-- **Whether a branch lands inside a window**: on the second or third of three instructions
that the pass rewrites. -/
def jumpInside (consts : List Value) (insts : List Inst) : Bool :=
  insts.any fun i =>
    match i.branchTarget with
    | some t =>
      1 ≤ t && windowAt consts insts (t - 1) || 2 ≤ t && windowAt consts insts (t - 2)
    | none => false

section Inside

variable {consts : List Value} {insts : List Inst}

lemma windowAt_of_triple {j : ℕ} {i1 i2 i3 : Inst} (h : TripleAt insts j i1 i2 i3)
    (hw : (foldWindow consts i1 i2 i3).isSome = true ∨ deadSetWindow consts i1 i2 i3 = true) :
    windowAt consts insts j = true := by
  simp only [windowAt, h.fst, h.snd, h.thd, Bool.or_eq_true]
  exact hw

lemma not_window_of_jumpInside (h : jumpInside consts insts = false) {i : Inst} (hi : i ∈ insts)
    {t j : ℕ} (ht : i.branchTarget = some t) (hj : windowAt consts insts j = true) :
    t ≠ j + 1 ∧ t ≠ j + 2 := by
  have hnone := List.any_eq_false.mp h i hi
  rw [ht] at hnone
  constructor
  · rintro rfl
    simp [hj] at hnone
  · rintro rfl
    simp [hj] at hnone

lemma survives_of_jumpInside (h : jumpInside consts insts = false) {newConsts : List Value}
    {marks : List (Option Inst)} (hm : Marked (foldRewriting newConsts consts) insts marks)
    {i : Inst} (hi : i ∈ insts) {t : ℕ} (ht : i.branchTarget = some t) :
    marks[t]? ≠ some none := by
  intro hdel
  obtain ⟨j, i1, i2, i3, i', htr, ⟨_, v, _, _, hfold⟩, hcase⟩ := hm.exists_window hdel
  have hwin : windowAt consts insts j = true := windowAt_of_triple htr (.inl (by rw [hfold]; rfl))
  obtain ⟨h1, h2⟩ := not_window_of_jumpInside h hi ht hwin
  omega

end Inside

/-! ## Dead assignments of the folded code -/

section Folded

variable {consts newConsts : List Value} {insts : List Inst} {marks : List (Option Inst)}

lemma compact_getElem? {n : ℕ} {i' : Inst} (h : (compact marks)[n]? = some i') :
    ∃ o i, marks[o]? = some (some i) ∧ oldToNew marks o = n ∧
      i' = i.mapTarget (newTarget marks) := by
  rw [compact_eq, List.getElem?_map] at h
  obtain ⟨i, hi, rfl⟩ := Option.map_eq_some_iff.mp h
  obtain ⟨o, ho, hn⟩ := exists_of_reduceOption hi
  exact ⟨o, i, ho, hn, rfl⟩

lemma compact_next {o : ℕ} {i i' : Inst} (ho : marks[o]? = some (some i))
    (hnext : marks[o + 1]? ≠ some none)
    (h : (compact marks)[oldToNew marks o + 1]? = some i') :
    ∃ j, marks[o + 1]? = some (some j) ∧ i' = j.mapTarget (newTarget marks) := by
  have hlt := lt_of_getElem?_eq_some h
  rw [compact_length, ← oldToNew_of_kept ho] at hlt
  have hin : o + 1 < marks.length := by
    by_contra hge
    rw [oldToNew_of_length_le (not_lt.mp hge)] at hlt
    omega
  obtain ⟨j, hj⟩ := exists_survivor hin hnext
  refine ⟨j, hj, ?_⟩
  rw [compact_eq, List.getElem?_map, ← oldToNew_of_kept ho, reduceOption_getElem? hj] at h
  exact (Option.some.inj h).symm

lemma Fx2.fixnum_ne_unspecified {op : Fx2} {x y : I64} {v : Value} (h : op.fixnum x y = some v) :
    v ≠ .unspecified := by
  rintro rfl
  cases op <;> simp [fixnum] at h

section

variable (hm : Marked (foldRewriting newConsts consts) insts marks)
  (hgrown : ∃ more, newConsts = consts ++ more) (hin : ∀ i ∈ insts, i.InPool consts.length = true)

include hm hgrown hin

/-- **A dead assignment of the folded code was one before**: folding neither makes the
unspecified constant nor brings the three instructions together. -/
lemma deadSet_before_fold {n : ℕ} {i1 i2 i3 : Inst} (htr : TripleAt (compact marks) n i1 i2 i3)
    (hdead : deadSetWindow newConsts i1 i2 i3 = true) :
    ∃ o j1 j2 j3, TripleAt insts o j1 j2 j3 ∧ deadSetWindow consts j1 j2 j3 = true ∧
      (∃ k, marks[o + 1]? = some (some k)) ∧ (∃ k, marks[o + 2]? = some (some k)) ∧
      oldToNew marks (o + 1) = n + 1 ∧ oldToNew marks (o + 2) = n + 2 := by
  obtain ⟨x, idx, rfl, rfl, rfl, hidx⟩ := deadSetWindow_eq_true hdead
  -- the assignment was kept, as folding only makes constants
  obtain ⟨o, a, ho, rfl, ha⟩ := compact_getElem? htr.fst
  obtain rfl : a = .setVar x := by cases a <;> cases ha; rfl
  obtain ⟨h1, hm1⟩ : insts[o]? = some (.setVar x) ∧ marks[o + 1]? ≠ some none := by
    cases hm.survivorAt ho with
    | keep h hnext => exact ⟨h, hnext⟩
    | window hw _ _ _ _ =>
      obtain ⟨_, _, hconst, _⟩ := hw
      cases hconst
  -- the constant was kept, as a folded one is not unspecified
  obtain ⟨b, hb, hb'⟩ := compact_next ho hm1 htr.snd
  obtain rfl : b = .const idx := by cases b <;> cases hb'; rfl
  obtain ⟨h2, hm2⟩ : insts[o + 1]? = some (.const idx) ∧ marks[o + 2]? ≠ some none := by
    cases hm.survivorAt hb with
    | keep h hnext => exact ⟨h, hnext⟩
    | window hw _ _ _ _ =>
      obtain ⟨_, v, hconst, hv, hfold⟩ := hw
      cases hconst
      obtain ⟨_, _, _, _, _, _, _, _, _, _, hop⟩ := foldWindow_eq_some hfold
      rw [hidx] at hv
      cases hv
      exact absurd rfl (Fx2.fixnum_ne_unspecified hop)
  have hpop := htr.thd
  rw [show oldToNew marks o + 2 = oldToNew marks (o + 1) + 1 by rw [oldToNew_of_kept ho]] at hpop
  obtain ⟨c, hc, hc'⟩ := compact_next hb hm2 hpop
  obtain rfl : c = .pop := by cases c <;> cases hc'; rfl
  have h3 : insts[o + 2]? = some .pop := by
    cases hm.survivorAt hc with
    | keep h _ => exact h
    | window hw _ _ _ _ =>
      obtain ⟨_, _, hconst, _⟩ := hw
      cases hconst
  have hlt : idx < consts.length := by
    simpa [Inst.InPool] using hin _ (List.mem_of_getElem? h2)
  obtain ⟨more, rfl⟩ := hgrown
  rw [List.getElem?_append_left hlt] at hidx
  refine ⟨o, _, _, _, ⟨h1, h2, h3⟩, ?_, ⟨_, hb⟩, ⟨_, hc⟩, oldToNew_of_kept ho, ?_⟩
  · simp [deadSetWindow, hidx]
  · rw [oldToNew_of_kept hb, oldToNew_of_kept ho]

lemma survives_after_fold (h : jumpInside consts insts = false) {i' : Inst}
    (hi' : i' ∈ compact marks) {t' : ℕ} (ht' : i'.branchTarget = some t') :
    (deadSetMarks newConsts (compact marks))[t']? ≠ some none := by
  intro hdel
  obtain ⟨n, i1, i2, i3, _, htr, ⟨_, hdead⟩, hcase⟩ :=
    (deadSetMarks_marked newConsts (compact marks)).exists_window hdel
  obtain ⟨o, j1, j2, j3, htr0, hdead0, ⟨k1, hk1⟩, ⟨k2, hk2⟩, hn1, hn2⟩ :=
    deadSet_before_fold hm hgrown hin htr hdead
  -- the branch and its target before folding
  obtain ⟨m, hm'⟩ := List.getElem?_of_mem hi'
  obtain ⟨q, i, hq, _, rfl⟩ := compact_getElem? hm'
  rw [Inst.branchTarget_mapTarget] at ht'
  obtain ⟨t, ht, rfl⟩ := Option.map_eq_some_iff.mp ht'
  have hi : i ∈ insts := by
    cases hm.survivorAt hq with
    | keep h1 _ => exact List.mem_of_getElem? h1
    | window hw _ _ _ _ =>
      obtain ⟨_, _, rfl, _⟩ := hw
      cases ht
  have hsurv := survives_of_jumpInside h hm hi ht
  obtain ⟨hne1, hne2⟩ :=
    not_window_of_jumpInside h hi ht (windowAt_of_triple htr0 (.inr hdead0))
  have hlen := lt_of_getElem?_eq_some htr.thd
  rcases movedTo_newTarget hsurv with ⟨_, hout⟩ | ⟨hlt, _, heq⟩
  · omega
  · obtain ⟨k, hk⟩ := exists_survivor hlt hsurv
    rcases hcase with hcase | hcase
    · exact hne1 (oldToNew_inj hk hk1 (by omega))
    · exact hne2 (oldToNew_inj hk hk2 (by omega))

end

end Folded

/-! ## The pass -/

lemma CompiledLambda.inPool_mono {n m : ℕ} (hnm : n ≤ m) {lam : CompiledLambda}
    (h : lam.InPool n = true) : lam.InPool m = true :=
  List.all_eq_true.mpr fun i hi => Inst.inPool_mono hnm (List.all_eq_true.mp h i hi)

lemma peephole_inPool {insts : List Inst} {consts : List Value}
    (hin : ∀ i ∈ insts, i.InPool consts.length = true) :
    (∃ more, (peephole insts consts).2 = consts ++ more) ∧
      ∀ i ∈ (peephole insts consts).1, i.InPool (peephole insts consts).2.length = true := by
  obtain ⟨⟨more, hmore⟩, hm⟩ := foldMarks_marked consts insts [] hin
  rw [List.append_nil] at hmore hm
  have hlen : consts.length ≤ (foldMarks insts consts).2.length := by simp [hmore]
  have hfold := hm.compact_inPool (fun _ _ _ _ => .inl) hlen hin
  have hdead := (deadSetMarks_marked (foldMarks insts consts).2
    (compact (foldMarks insts consts).1)).compact_inPool (fun _ _ _ _ => .inr) le_rfl hfold
  refine ⟨⟨more, hmore⟩, ?_⟩
  intro i' hi'
  obtain ⟨n, hn⟩ := List.getElem?_of_mem hi'
  have hrel := forall₂_getElem? (threadJumps_redirected
    (cancelDeadSet (foldConsts insts consts).1 (foldConsts insts consts).2)) n
  rw [show (threadJumps (cancelDeadSet (foldConsts insts consts).1
    (foldConsts insts consts).2))[n]? = some i' from hn] at hrel
  generalize hold : (cancelDeadSet _ _)[n]? = x at hrel
  cases hrel with
  | some hred =>
    obtain ⟨σ, rfl, _⟩ := hred
    rw [Inst.inPool_mapTarget]
    exact hdead _ (List.mem_of_getElem? hold)

/-- **The peephole pass preserves behaviour** when no branch lands inside a window it rewrites.

**Proof sketch.** Constant folding, dead-set cancellation and jump threading are recodings, one
of the output of the other. -/
theorem peephole_indistinguishable (B : Builtins) (S : Setting) {insts : List Inst}
    {consts : List Value} {lambdas : List CompiledLambda}
    (hin : ∀ i ∈ insts, i.InPool consts.length = true)
    (hlam : ∀ lam ∈ lambdas, lam.InPool consts.length = true)
    (h : jumpInside consts insts = false) :
    Indistinguishable B (S.start (peephole insts consts).1 lambdas (peephole insts consts).2)
      (S.start insts lambdas consts) := by
  obtain ⟨⟨more, hmore⟩, hm⟩ := foldMarks_marked consts insts [] hin
  rw [List.append_nil] at hmore hm
  have hlen : consts.length ≤ (foldMarks insts consts).2.length := by simp [hmore]
  have hlam' : ∀ lam ∈ lambdas, lam.InPool (foldMarks insts consts).2.length = true :=
    fun lam hl => CompiledLambda.inPool_mono hlen (hlam lam hl)
  have hinFold := hm.compact_inPool (fun _ _ _ _ => .inl) hlen hin
  have hmDead := deadSetMarks_marked (foldMarks insts consts).2 (compact (foldMarks insts consts).1)
  have hinDead := hmDead.compact_inPool (fun _ _ _ _ => .inr) le_rfl hinFold
  -- the three recodings, last one first
  let fold := hm.recoding (fun _ _ _ _ => .inl) ⟨more, hmore⟩ hin
    fun i hi t ht => survives_of_jumpInside h hm hi ht
  let dead := hmDead.recoding (fun _ _ _ _ => .inr)
    ⟨[], (List.append_nil _).symm⟩ hinFold
    fun i hi t ht => survives_after_fold hm ⟨more, hmore⟩ hin h hi ht
  let thread := threading _ _ hinDead
  have h1 := thread.indistinguishable B S hlam'
  have h2 := dead.indistinguishable B S hlam'
  have h3 := fold.indistinguishable B S hlam
  exact (h1.trans h2).trans h3

end CrabScheme
