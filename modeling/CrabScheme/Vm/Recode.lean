import CrabScheme.Vm.Peephole
import CrabScheme.Vm.Runs

/-!
# Rewriting the code of one body

A pass over compiled code replaces one instruction sequence by another. A `Recoding` says which
positions of the new code correspond to which positions of the old code, and what the code at
corresponding positions looks like; this is all that has to be shown of a pass. The new code then
behaves as the old one, whatever else runs: the lambdas of the unit, closures made by either code,
native procedures and continuations.

## Main results

* `Recoding.sim` — a recoding is a simulation.
* `Recoding.indistinguishable` — what that means for runs.
-/

namespace CrabScheme

open Transition

/-- Whether the constant an instruction pushes is in a pool of `n` constants. -/
def Inst.InPool (n : ℕ) : Inst → Bool
  | .const idx => idx < n
  | _ => true

/-- Whether the constants of a compiled lambda are in a pool of `n` constants. -/
def CompiledLambda.InPool (n : ℕ) (lam : CompiledLambda) : Bool := lam.body.all (Inst.InPool n)

/-- **The code at corresponding positions** `n` of the new and `o` of the old code. -/
inductive CodeMatch (new : List Inst) (newConsts : List Value) (old : List Inst)
    (oldConsts : List Value) (pos : ℕ → ℕ → Prop) (n o : ℕ) : Prop
  /-- Both bodies end. -/
  | ended : new[n]? = none → old[o]? = none → CodeMatch new newConsts old oldConsts pos n o
  /-- The same instruction; the target of a branch corresponds, perhaps after some jumps. -/
  | inst {i : Inst} {τ : ℕ → ℕ} : new[n]? = some i → old[o]? = some (i.mapTarget τ) →
      i.InPool oldConsts.length = true →
      (∀ t, i.branchTarget = some t → ∃ t', Hops old (τ t) t' ∧ pos t t') → pos (n + 1) (o + 1) →
      CodeMatch new newConsts old oldConsts pos n o
  /-- The new code pushes what the old code computes from two constants. -/
  | folded {k : ℕ} {v : Value} {i₁ i₂ i₃ : Inst} : new[n]? = some (.const k) →
      newConsts[k]? = some v → old[o]? = some i₁ → old[o + 1]? = some i₂ →
      old[o + 2]? = some i₃ → foldWindow oldConsts i₁ i₂ i₃ = some v → pos (n + 1) (o + 3) →
      CodeMatch new newConsts old oldConsts pos n o
  /-- The old code pops the value of an assignment, the new code does not push it. -/
  | deadSet {x : Symbol} {idx : ℕ} : new[n]? = some (.setVar x) → old[o]? = some (.setVar x) →
      old[o + 1]? = some (.const idx) → old[o + 2]? = some .pop → idx < oldConsts.length →
      pos (n + 1) (o + 3) → CodeMatch new newConsts old oldConsts pos n o

/-- **A recoding**: new code for old code, over a pool of constants that may have grown, with the
positions that correspond. -/
structure Recoding where
  new : List Inst
  newConsts : List Value
  old : List Inst
  oldConsts : List Value
  pos : ℕ → ℕ → Prop
  grown : ∃ more, newConsts = oldConsts ++ more
  start : pos 0 0
  matched : ∀ n o, pos n o → CodeMatch new newConsts old oldConsts pos n o

lemma foldWindow_eq_some {consts : List Value} {i j k : Inst} {v : Value}
    (h : foldWindow consts i j k = some v) :
    ∃ a b x y op, i = .const a ∧ j = .const b ∧ k = .fx2 op ∧ consts[a]? = some (.fixnum x) ∧
      consts[b]? = some (.fixnum y) ∧ op.fixnum x y = some v := by
  have hconst : ∀ {i : Inst} {x : I64}, asFixnumConst consts i = some x →
      ∃ a, i = .const a ∧ consts[a]? = some (.fixnum x) := by
    intro i x hx
    unfold asFixnumConst at hx
    split at hx
    · rename_i a
      split at hx
      · rename_i n hn
        cases hx
        exact ⟨a, rfl, hn⟩
      · cases hx
    · cases hx
  unfold foldWindow at h
  split at h
  · rename_i op x y hx hy
    obtain ⟨a, rfl, ha⟩ := hconst hx
    obtain ⟨b, rfl, hb⟩ := hconst hy
    exact ⟨a, b, x, y, op, rfl, rfl, rfl, ha, hb, h⟩
  · cases h

@[simp] lemma Inst.mapTarget_id (i : Inst) : i.mapTarget id = i := by
  cases i <;> rfl

namespace Recoding

variable (R : Recoding)

/-- Units with the same lambdas over the two pools. -/
structure UnitRel (bc bc' : Bytecode) : Prop where
  lambdas : bc.lambdas = bc'.lambdas
  new : bc.consts = R.newConsts
  old : bc'.consts = R.oldConsts
  inPool : ∀ lam ∈ bc.lambdas, lam.InPool R.oldConsts.length = true

/-- Closures that correspond: the same one, or one lambda of the two units. -/
inductive CloRel : VmClosure → VmClosure → Prop
  | same (c : VmClosure) : CloRel c c
  | unit {bc bc' : Bytecode} {idx : ℕ} {env : Env} : R.UnitRel bc bc' →
      CloRel ⟨bc, idx, env⟩ ⟨bc', idx, env⟩

/-- Frames that correspond: the same one, a frame of one lambda of the two units, or frames of
the new and the old code at corresponding positions. -/
inductive FrameRel : Frame → Frame → Prop
  | same (f : Frame) : FrameRel f f
  | lambda {insts : List Inst} {ip : ℕ} {env : Env} {bc bc' : Bytecode}
      {marks : List (Value × Value)} : R.UnitRel bc bc' →
      insts.all (Inst.InPool R.oldConsts.length) = true →
      FrameRel ⟨insts, ip, env, bc, marks⟩ ⟨insts, ip, env, bc', marks⟩
  | body {n o : ℕ} {env : Env} {bc bc' : Bytecode} {marks : List (Value × Value)} :
      R.UnitRel bc bc' → R.pos n o → FrameRel ⟨R.new, n, env, bc, marks⟩ ⟨R.old, o, env, bc', marks⟩

/-- Loops that correspond. -/
structure LoopRel (l l' : VmLoop) : Prop where
  frames : List.Forall₂ R.FrameRel l.frames l'.frames
  stack : l.stack = l'.stack

/-- The link of the new and the old code. -/
def link : Link VmClosure VmLoop where
  clo := R.CloRel
  loop := R.LoopRel
  clo_refl := .same
  loop_refl _ := ⟨List.forall₂_same.mpr fun f _ => .same f, rfl⟩

variable {R}
variable {bc bc' : Bytecode}

section Frames

variable {f f' : Frame}

lemma FrameRel.env_eq (h : R.FrameRel f f') : f.env = f'.env := by cases h <;> rfl

lemma FrameRel.marks_eq (h : R.FrameRel f f') : f.marks = f'.marks := by cases h <;> rfl

lemma FrameRel.setEnv (h : R.FrameRel f f') (env : Env) :
    R.FrameRel { f with env := env } { f' with env := env } := by
  cases h with
  | same => exact .same _
  | lambda hbc hin => exact .lambda hbc hin
  | body hbc hpos => exact .body hbc hpos

lemma FrameRel.setMarks (h : R.FrameRel f f') (marks : List (Value × Value)) :
    R.FrameRel { f with marks := marks } { f' with marks := marks } := by
  cases h with
  | same => exact .same _
  | lambda hbc hin => exact .lambda hbc hin
  | body hbc hpos => exact .body hbc hpos

lemma FrameRel.clo (h : R.FrameRel f f') (idx : ℕ) :
    R.CloRel ⟨f.bc, idx, f.env⟩ ⟨f'.bc, idx, f'.env⟩ := by
  cases h with
  | same => exact .same _
  | lambda hbc _ => exact .unit hbc
  | body hbc _ => exact .unit hbc

lemma UnitRel.const_eq (h : R.UnitRel bc bc') {idx : ℕ} (hidx : idx < R.oldConsts.length)
    : bc.consts[idx]? = bc'.consts[idx]? := by
  obtain ⟨more, hmore⟩ := R.grown
  rw [h.new, h.old, hmore, List.getElem?_append_left hidx]

end Frames

variable (R) in
/-- The second frame comes to correspond to the first after some jumps. -/
def Lands (B : Builtins) (f f' : Frame) : Prop :=
  ∃ f₂, R.FrameRel f f₂ ∧ ∀ fs st w, (vmEngine B).Runs B ⟨f' :: fs, st⟩ w ⟨f₂ :: fs, st⟩ w

lemma FrameRel.lands {B : Builtins} {f f' : Frame} (h : R.FrameRel f f') : R.Lands B f f' :=
  ⟨f', h, fun _ _ _ => .refl _ _⟩

section Step

variable {B : Builtins} {f f' : Frame} {fs fs' : List Frame} {st : List Value} {w w' : VmWorld}

/-- Steps that correspond. -/
abbrev StepRel (R : Recoding) (B : Builtins) : VmStep → VmStep → Prop :=
  R.link.StepRel B (vmEngine B)

lemma stepRel_next (hf : R.FrameRel f f') (hfs : List.Forall₂ R.FrameRel fs fs')
    (hw : R.link.WorldRel w w') :
    StepRel R B (.next ⟨f :: fs, st⟩ w) (.next ⟨f' :: fs', st⟩ w') := by
  have hl : R.LoopRel ⟨f :: fs, st⟩ ⟨f' :: fs', st⟩ := ⟨.cons hf hfs, rfl⟩
  exact .next hl hw (.refl _ _)

lemma stepRel_lands (hf : R.Lands B f f') (hfs : List.Forall₂ R.FrameRel fs fs')
    (hw : R.link.WorldRel w w') :
    StepRel R B (.next ⟨f :: fs, st⟩ w) (.next ⟨f' :: fs', st⟩ w') := by
  obtain ⟨f2, hf2, hrun⟩ := hf
  have hl : R.LoopRel ⟨f :: fs, st⟩ ⟨f2 :: fs', st⟩ := ⟨.cons hf2 hfs, rfl⟩
  exact .next hl hw (hrun fs' st w')

lemma popFrame_rel (hfs : List.Forall₂ R.FrameRel fs fs') (hw : R.link.WorldRel w w') :
    StepRel R B (popFrame fs st w) (popFrame fs' st w') := by
  cases hfs with
  | nil => cases st <;> exact .halt hw
  | cons hf hfs => exact stepRel_next hf hfs hw

lemma popping_rel (hw : R.link.WorldRel w w') {k k' : Value → List Value → VmStep}
    (h : ∀ v st, StepRel R B (k v st) (k' v st)) :
    StepRel R B (popping st w k) (popping st w' k') := by
  cases st with
  | nil => exact .halt hw
  | cons v st => exact h v st

lemma raiseArith_rel (hw : R.link.WorldRel w w') (op : Fx2) (v : Value) :
    StepRel R B (raiseArith B op v w) (raiseArith B op v w') := by
  unfold raiseArith
  rw [hw.heap_eq]
  exact .halt ((hw.setHeap _).setRaise _)

section

variable (hf : R.FrameRel f f') (hfs : List.Forall₂ R.FrameRel fs fs') (hw : R.link.WorldRel w w')

include hf hfs hw

lemma execFx2_rel (op : Fx2) :
    StepRel R B (execFx2 B op f fs st w) (execFx2 B op f' fs' st w') := by
  rcases st with _ | ⟨b, _ | ⟨a, st⟩⟩
  · exact .halt hw
  · exact .halt hw
  · unfold execFx2
    dsimp only
    cases op.apply B.fp a b with
    | ok v => exact stepRel_next hf hfs hw.single
    | error v => exact raiseArith_rel hw op v

lemma execBranch_rel {t t' : ℕ} (ht : R.Lands B { f with ip := t } { f' with ip := t' })
    (b : BranchOp) : StepRel R B (execBranch B b t f fs st w) (execBranch B b t' f' fs' st w') := by
  unfold execBranch
  split
  · split
    · exact stepRel_lands ht hfs hw
    · exact stepRel_next hf hfs hw
  · split
    · split
      · exact stepRel_next hf hfs hw
      · exact stepRel_lands ht hfs hw
    · exact raiseArith_rel hw _ _
  · exact .halt hw

lemma execCall_rel (n : ℕ) (tail : Bool) :
    StepRel R B (execCall n tail f fs st w) (execCall n tail f' fs' st w') := by
  unfold execCall
  split
  · exact .call ⟨.cons hf hfs, rfl⟩ hw
  · exact .halt hw

/-- **One instruction** in corresponding frames. -/
lemma exec_rel {i : Inst} {τ : ℕ → ℕ}
    (hconst : ∀ idx, i = .const idx → f.bc.consts[idx]? = f'.bc.consts[idx]?)
    (htarget : ∀ t, i.branchTarget = some t → R.Lands B { f with ip := t } { f' with ip := τ t }) :
    StepRel R B (exec B i f fs st w) (exec B (i.mapTarget τ) f' fs' st w') := by
  have henv := hf.env_eq
  cases i with
  | const idx =>
    simp only [exec, Inst.mapTarget, hconst idx rfl]
    split
    · exact stepRel_next hf hfs hw.single
    · exact .halt hw
  | loadVar x =>
    simp only [exec, Inst.mapTarget, henv, hw.layers_eq]
    split
    · exact stepRel_next hf hfs hw.single
    · exact .halt hw
  | setVar x =>
    refine popping_rel hw fun v st => ?_
    rw [henv]
    exact stepRel_next hf hfs (hw.assign _ x v)
  | defineGlobal x =>
    refine popping_rel hw fun v st => ?_
    rw [henv]
    exact stepRel_next hf hfs (hw.defineGlobal _ x v)
  | defineLocal x =>
    refine popping_rel hw fun v st => ?_
    rw [henv]
    exact stepRel_next hf hfs (hw.defineLocal _ x v)
  | pop => exact popping_rel hw fun v st => stepRel_next hf hfs hw
  | jumpIfFalse t =>
    refine popping_rel hw fun v st => ?_
    split
    · exact stepRel_next hf hfs hw
    · exact stepRel_lands (htarget t rfl) hfs hw
  | jump t => exact stepRel_lands (htarget t rfl) hfs hw
  | call n => exact execCall_rel hf hfs hw n false
  | tailCall n => exact execCall_rel hf hfs hw n true
  | makeClosure idx =>
    obtain ⟨hv, hw2⟩ := hw.newProc (.closure (hf.clo idx))
    simp only [exec, Inst.mapTarget]
    rw [hv]
    exact stepRel_next hf hfs hw2.single
  | ret => exact popFrame_rel hfs hw
  | pushMark =>
    refine popping_rel hw fun val st => popping_rel hw fun key st => ?_
    rw [hf.marks_eq, hw.heap_eq]
    exact stepRel_next (hf.setMarks _) hfs hw
  | enterScope =>
    obtain ⟨hr, hw2⟩ := hw.newLayer
    simp only [exec, Inst.mapTarget]
    rw [hr, henv]
    exact stepRel_next (hf.setEnv _) hfs hw2
  | leaveScope =>
    simp only [exec, henv]
    split
    · exact stepRel_next (hf.setEnv _) hfs hw
    · exact .halt hw
  | fx2 op => exact execFx2_rel hf hfs hw op
  | branchOn b t => exact execBranch_rel hf hfs hw (htarget t rfl) b

end

variable {env : Env} {marks : List (Value × Value)}

lemma folded_sim {n o k : ℕ} {v : Value} {i1 i2 i3 : Inst} (hbc : R.UnitRel bc bc')
    (hfs : List.Forall₂ R.FrameRel fs fs') (hw : R.link.WorldRel w w')
    (hk : R.newConsts[k]? = some v) (h1 : R.old[o]? = some i1) (h2 : R.old[o + 1]? = some i2)
    (h3 : R.old[o + 2]? = some i3) (hfold : foldWindow R.oldConsts i1 i2 i3 = some v)
    (hpos : R.pos (n + 1) (o + 3)) :
    R.link.StepSim B (vmEngine B) ⟨⟨R.old, o, env, bc', marks⟩ :: fs', st⟩ w'
      (exec B (.const k) ⟨R.new, n + 1, env, bc, marks⟩ fs st w) := by
  obtain ⟨a, b, x, y, op, rfl, rfl, rfl, ha, hb, hop⟩ := foldWindow_eq_some hfold
  have hs1 : dispatch B ⟨⟨R.old, o, env, bc', marks⟩ :: fs', st⟩ w' =
      .next ⟨⟨R.old, o + 1, env, bc', marks⟩ :: fs', .fixnum x :: st⟩ w'.single := by
    simp only [dispatch, h1, exec, hbc.old, ha]
  have hs2 : dispatch B ⟨⟨R.old, o + 1, env, bc', marks⟩ :: fs', .fixnum x :: st⟩ w'.single =
      .next ⟨⟨R.old, o + 2, env, bc', marks⟩ :: fs', .fixnum y :: .fixnum x :: st⟩
        w'.single.single := by
    simp only [dispatch, h2, exec, hbc.old, hb]
  have hs3 : dispatch B ⟨⟨R.old, o + 2, env, bc', marks⟩ :: fs', .fixnum y :: .fixnum x :: st⟩
      w'.single.single =
      .next ⟨⟨R.old, o + 3, env, bc', marks⟩ :: fs', v :: st⟩ w'.single.single.single := by
    simp only [dispatch, h3, exec, execFx2, Fx2.apply, hop]
  have hr : exec B (.const k) ⟨R.new, n + 1, env, bc, marks⟩ fs st w =
      .next ⟨⟨R.new, n + 1, env, bc, marks⟩ :: fs, v :: st⟩ w.single := by
    simp only [exec, hbc.new, hk]
  have hl : R.LoopRel ⟨⟨R.new, n + 1, env, bc, marks⟩ :: fs, v :: st⟩
      ⟨⟨R.old, o + 3, env, bc', marks⟩ :: fs', v :: st⟩ := ⟨.cons (.body hbc hpos) hfs, rfl⟩
  refine .more hr hl hw.single.single_right.single_right ?_
  exact ((runs_of_dispatch hs1).trans (runs_of_dispatch hs2)).trans_plus
    (Engine.runsPlus_of_step hs3)

lemma deadSet_sim {n o idx : ℕ} {x : Symbol} (hbc : R.UnitRel bc bc')
    (hfs : List.Forall₂ R.FrameRel fs fs') (hw : R.link.WorldRel w w')
    (h1 : R.old[o]? = some (.setVar x)) (h2 : R.old[o + 1]? = some (.const idx))
    (h3 : R.old[o + 2]? = some .pop) (hidx : idx < R.oldConsts.length)
    (hpos : R.pos (n + 1) (o + 3)) :
    R.link.StepSim B (vmEngine B) ⟨⟨R.old, o, env, bc', marks⟩ :: fs', st⟩ w'
      (exec B (.setVar x) ⟨R.new, n + 1, env, bc, marks⟩ fs st w) := by
  cases st with
  | nil =>
    -- without an operand both raise
    refine .one ?_
    simp only [vmEngine, dispatch, h1]
    exact .halt hw
  | cons v st =>
    have hw2 := hw.assign env x v
    obtain ⟨u, hu⟩ : ∃ u, bc'.consts[idx]? = some u := by
      rw [hbc.old]
      exact ⟨_, List.getElem?_eq_getElem hidx⟩
    have hs1 : dispatch B ⟨⟨R.old, o, env, bc', marks⟩ :: fs', v :: st⟩ w' =
        .next ⟨⟨R.old, o + 1, env, bc', marks⟩ :: fs', st⟩ (w'.assign env x v) := by
      simp only [dispatch, h1, exec, popping]
    have hs2 : dispatch B ⟨⟨R.old, o + 1, env, bc', marks⟩ :: fs', st⟩ (w'.assign env x v) =
        .next ⟨⟨R.old, o + 2, env, bc', marks⟩ :: fs', u :: st⟩ (w'.assign env x v).single := by
      simp only [dispatch, h2, exec, hu]
    have hs3 : dispatch B ⟨⟨R.old, o + 2, env, bc', marks⟩ :: fs', u :: st⟩
        (w'.assign env x v).single =
        .next ⟨⟨R.old, o + 3, env, bc', marks⟩ :: fs', st⟩ (w'.assign env x v).single := by
      simp only [dispatch, h3, exec, popping]
    have hl : R.LoopRel ⟨⟨R.new, n + 1, env, bc, marks⟩ :: fs, st⟩
        ⟨⟨R.old, o + 3, env, bc', marks⟩ :: fs', st⟩ := ⟨.cons (.body hbc hpos) hfs, rfl⟩
    refine .more rfl hl hw2.single_right ?_
    exact ((runs_of_dispatch hs1).trans (runs_of_dispatch hs2)).trans_plus
      (Engine.runsPlus_of_step hs3)

lemma dispatch_rel_same {insts : List Inst} {ip : ℕ}
    (hf : ∀ t, R.FrameRel ⟨insts, t, env, bc, marks⟩ ⟨insts, t, env, bc', marks⟩)
    (hconst : ∀ idx, .const idx ∈ insts → bc.consts[idx]? = bc'.consts[idx]?)
    (hfs : List.Forall₂ R.FrameRel fs fs') (hw : R.link.WorldRel w w') :
    StepRel R B (dispatch B ⟨⟨insts, ip, env, bc, marks⟩ :: fs, st⟩ w)
      (dispatch B ⟨⟨insts, ip, env, bc', marks⟩ :: fs', st⟩ w') := by
  simp only [dispatch]
  cases hi : insts[ip]? with
  | none => exact popFrame_rel hfs hw
  | some i =>
    have hmem : i ∈ insts := List.mem_of_getElem? hi
    have h : StepRel R B (exec B i _ fs st w) (exec B (i.mapTarget id) _ fs' st w') :=
      exec_rel (hf (ip + 1)) hfs hw (fun idx hidx => hconst idx (hidx ▸ hmem))
        (fun t _ => (hf t).lands)
    rwa [Inst.mapTarget_id] at h

/-- **One iteration of corresponding loops.** -/
lemma dispatch_sim {l l' : VmLoop} (hl : R.LoopRel l l')
    (hw : R.link.WorldRel w w') :
    R.link.StepSim B (vmEngine B) l' w' (dispatch B l w) := by
  obtain ⟨frames, st⟩ := l
  obtain ⟨frames', st'⟩ := l'
  obtain ⟨hfs, rfl⟩ := hl
  cases hfs with
  | nil => exact .one (.halt hw)
  | cons hf hfs =>
    cases hf with
    | same f =>
      exact .one (dispatch_rel_same (fun t => .same _) (fun _ _ => rfl) hfs hw)
    | lambda hbc hin =>
      refine .one (dispatch_rel_same (fun t => .lambda hbc hin) ?_ hfs hw)
      intro idx hidx
      have := List.all_eq_true.mp hin _ hidx
      exact hbc.const_eq (by simpa [Inst.InPool] using this)
    | body hbc hpos =>
      cases R.matched _ _ hpos with
      | ended hn ho =>
        refine .one ?_
        simp only [vmEngine, dispatch, hn, ho]
        exact popFrame_rel hfs hw
      | @inst i τ hn ho hin ht hpos' =>
        refine .one ?_
        simp only [vmEngine, dispatch, hn, ho]
        refine exec_rel (.body hbc hpos') hfs hw ?_ ?_
        · rintro idx rfl
          exact hbc.const_eq (by simpa [Inst.InPool] using hin)
        · intro t htarget
          obtain ⟨t', hhops, hpos''⟩ := ht t htarget
          exact ⟨_, .body hbc hpos'', fun fs st w => runs_of_hops hhops _ _ _ fs st w⟩
      | folded hn hk h1 h2 h3 hfold hpos' =>
        simp only [dispatch, hn]
        exact folded_sim hbc hfs hw hk h1 h2 h3 hfold hpos'
      | deadSet hn h1 h2 h3 hidx hpos' =>
        simp only [dispatch, hn]
        exact deadSet_sim hbc hfs hw h1 h2 h3 hidx hpos'

end Step

section Calls

variable {B : Builtins} {l l' : VmLoop} {w w' : VmWorld}

lemma deliver_rel (hl : R.LoopRel l l') (tail : Bool) (v : Value) :
    R.link.DeliverRel (l.deliver tail v) (l'.deliver tail v) := by
  obtain ⟨frames, st⟩ := l
  obtain ⟨frames', st'⟩ := l'
  obtain ⟨hfs, rfl⟩ := hl
  cases tail with
  | false => exact ⟨hfs, rfl⟩
  | true =>
    rcases hfs with _ | ⟨_, _ | ⟨hf, hfs⟩⟩
    · exact rfl
    · exact rfl
    · exact ⟨.cons hf hfs, rfl⟩

variable {c c' : VmClosure}

lemma CloRel.lambda_eq (h : R.CloRel c c') :
    c.bc.lambdas[c.lambdaIdx]? = c'.bc.lambdas[c'.lambdaIdx]? ∧ c.env = c'.env := by
  cases h with
  | same => exact ⟨rfl, rfl⟩
  | unit hbc => exact ⟨by rw [hbc.lambdas], rfl⟩

lemma CloRel.frame (h : R.CloRel c c') {lam : CompiledLambda}
    (hlam : c.bc.lambdas[c.lambdaIdx]? = some lam) (env : Env) (marks : List (Value × Value)) :
    R.FrameRel ⟨lam.body, 0, env, c.bc, marks⟩ ⟨lam.body, 0, env, c'.bc, marks⟩ := by
  cases h with
  | same => exact .same _
  | unit hbc => exact .lambda hbc (hbc.inPool lam (List.mem_of_getElem? hlam))

lemma applyFastPrimop_rel (fp : FastPrimopBody) (args : List Value)
    (hw : R.link.WorldRel w w') :
    (applyFastPrimop B fp args w).1 = (applyFastPrimop B fp args w').1 ∧
      R.link.WorldRel (applyFastPrimop B fp args w).2 (applyFastPrimop B fp args w').2 := by
  unfold applyFastPrimop
  split
  · rename_i a b _ _
    cases fp.op.apply B.fp a b with
    | ok v => exact ⟨rfl, hw.single⟩
    | error v =>
      rw [hw.heap_eq]
      exact ⟨rfl, (hw.setHeap _).setRaise _⟩
  · exact ⟨rfl, hw⟩

lemma deliverFast_rel (hl : R.LoopRel l l') (tail : Bool)
    {r r' : Except VmError Value × VmWorld} (hr : r.1 = r'.1) (hw : R.link.WorldRel r.2 r'.2) :
    StepRel R B (deliverFast l tail r) (deliverFast l' tail r') := by
  obtain ⟨res, w⟩ := r
  obtain ⟨res', w'⟩ := r'
  obtain rfl : res = res' := hr
  cases res with
  | error e => exact .halt hw
  | ok v =>
    have h := deliver_rel hl tail v
    unfold deliverFast
    dsimp only
    revert h
    generalize l.deliver tail v = x, l'.deliver tail v = y
    intro h
    rcases x with l2 | r <;> rcases y with l2' | r'
    · exact .next h hw (.refl _ _)
    · exact h.elim
    · exact h.elim
    · obtain rfl : r = r' := h
      exact .halt hw

lemma enter_rel {tail : Bool} {a : ℕ} {args : List Value} (hl : R.LoopRel l l') (hc : R.CloRel c c')
    (hw : R.link.WorldRel w w') :
    StepRel R B (l.enter B tail c a args w) (l'.enter B tail c' a args w') := by
  obtain ⟨frames, st⟩ := l
  obtain ⟨frames', st'⟩ := l'
  have hl0 := hl
  obtain ⟨hfs, rfl⟩ := hl
  obtain ⟨hlam, henv⟩ := hc.lambda_eq
  unfold VmLoop.enter
  rw [← hlam, ← henv]
  cases hlam2 : c.bc.lambdas[c.lambdaIdx]? with
  | none => exact .halt hw
  | some lam =>
    cases hfs with
    | nil => exact .halt hw
    | cons hf hfs =>
      dsimp only
      split
      · split
        · rename_i fp _
          obtain ⟨hr, hw2⟩ := applyFastPrimop_rel fp args hw
          exact deliverFast_rel hl0 tail hr hw2
        · obtain ⟨hb, hw2⟩ := hw.bindArgs lam.params lam.rest lam.selfBind c.env (.procedure a) args
          unfold pushBody
          rw [hb]
          cases tail with
          | true =>
            rw [hf.marks_eq]
            exact stepRel_next (hc.frame hlam2 _ _) hfs hw2
          | false =>
            exact stepRel_next (hc.frame hlam2 _ _) (.cons hf hfs) hw2
      · exact .halt hw

lemma start_rel {a : ℕ} {args : List Value} (hc : R.CloRel c c') (hw : R.link.WorldRel w w') :
    StepRel R B (startClosure B c a args w) (startClosure B c' a args w') := by
  obtain ⟨hlam, henv⟩ := hc.lambda_eq
  unfold startClosure
  rw [← hlam, ← henv]
  cases hlam2 : c.bc.lambdas[c.lambdaIdx]? with
  | none => exact .halt hw
  | some lam =>
    dsimp only
    split
    · split
      · rename_i fp _
        obtain ⟨hr, hw2⟩ := applyFastPrimop_rel fp args hw
        rw [hr]
        exact .halt hw2
      · obtain ⟨hb, hw2⟩ := hw.bindArgs lam.params lam.rest lam.selfBind c.env (.procedure a) args
        rw [hb]
        exact stepRel_next (hc.frame hlam2 _ _) .nil hw2
    · exact .halt hw

end Calls

/-- **A recoding is a simulation** of the machine with the old code by the machine with the new
code; no iteration of the new code is left unmatched. -/
theorem sim (R : Recoding) (B : Builtins) : R.link.Sim B (vmEngine B) where
  step hl hw := dispatch_sim hl hw
  deliver tail v hl := deliver_rel hl tail v
  resume v hl := ⟨hl.frames, congrArg (v :: ·) hl.stack⟩
  enter _ _ _ hl hc hw := enter_rel hl hc hw
  start _ _ hc hw := start_rel hc hw

end Recoding

/-! ## Bodies that cannot be told apart -/

/-- Where a body is started: its environment and marks, the frames and operands below it, the
native code that waits, and the shared state. -/
structure Setting where
  env : Env
  marks : List (Value × Value)
  frames : List Frame
  stack : List Value
  ctxs : List (Ctx VmLoop)
  world : VmWorld

/-- The machine about to run a body from its first instruction. -/
def Setting.start (S : Setting) (code : List Inst) (lambdas : List CompiledLambda)
    (consts : List Value) : VmState :=
  ⟨.run ⟨⟨code, 0, S.env, ⟨code, lambdas, consts⟩, S.marks⟩ :: S.frames, S.stack⟩, S.ctxs, S.world⟩

/-- **Runs that cannot be told apart, operands included**: they halt together in states that
agree, and whenever the first one is in a loop, the second one passes through a loop with as
many frames, the same operands and the same variables. -/
structure Indistinguishable (B : Builtins) (s s' : VmState) : Prop where
  observed : Observed (vmNext B) (vmNext B) s s'
  operands : ∀ t l, Reaches (vmNext B) s t → t.ctl = .run l → ∃ t' l', Reaches (vmNext B) s' t' ∧
    t'.ctl = .run l' ∧ l.frames.length = l'.frames.length ∧ l.stack = l'.stack ∧ t.Agrees t'

lemma Indistinguishable.trans {B : Builtins} {s s' s2 : VmState}
    (h : Indistinguishable B s s') (h' : Indistinguishable B s' s2) :
    Indistinguishable B s s2 := by
  refine ⟨h.observed.trans h'.observed, ?_⟩
  intro t l ht hl
  obtain ⟨t', l', ht', hl', hlen, hst, hagree⟩ := h.operands t l ht hl
  obtain ⟨t2, l2, ht2, hl2, hlen2, hst2, hagree2⟩ := h'.operands t' l' ht' hl'
  exact ⟨t2, l2, ht2, hl2, hlen.trans hlen2, hst.trans hst2, hagree.trans hagree2⟩

/-- **A recoded body cannot be told apart from the old one.** -/
theorem Recoding.indistinguishable (R : Recoding) (B : Builtins) (S : Setting)
    {lambdas : List CompiledLambda} (hlam : ∀ lam ∈ lambdas, lam.InPool R.oldConsts.length = true) :
    Indistinguishable B (S.start R.new lambdas R.newConsts)
      (S.start R.old lambdas R.oldConsts) := by
  have hstart : R.link.StateRel (S.start R.new lambdas R.newConsts)
      (S.start R.old lambdas R.oldConsts) := by
    refine ⟨.run ⟨.cons (.body ⟨rfl, rfl, rfl, hlam⟩ R.start) ?_, rfl⟩,
      List.forall₂_same.mpr fun c _ => .refl c, .refl S.world⟩
    exact List.forall₂_same.mpr fun f _ => .same f
  refine ⟨(R.sim B).observed hstart, ?_⟩
  intro t l ht hl
  obtain ⟨t', ht', hrel⟩ := (R.sim B).reaches hstart ht
  have hagree := (hrel.agrees (B := B) (E := vmEngine B)).1
  obtain ⟨ctl, cs, w⟩ := t
  obtain ⟨ctl', cs', w'⟩ := t'
  obtain ⟨hctl, _, _⟩ := hrel
  subst hl
  cases hctl with
  | run hl' => exact ⟨_, _, ht', rfl, hl'.frames.length_eq, hl'.stack, hagree⟩

end CrabScheme
