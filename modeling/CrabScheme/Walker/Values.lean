import CrabScheme.Machine.Values
import CrabScheme.Walker.Eval

/-!
# Multiple values in the evaluator

Every evaluation is tidy in the sense of `Machine.Values`: the property holds of each
builtin that calls back, given that it holds of the calls, and then of the whole evaluator.

## Main results

* `walkTidy` — every evaluation is tidy, by induction on the budget.
-/

namespace CrabScheme

/-! ## Evaluation is tidy -/

/-- The outcome of an evaluation from `w`: tidy, and in step when it is a value. -/
def Res.Tidy {ε α : Type} (w : WalkWorld) (r : Res ε α) : Prop :=
  ∀ res w', r = some (res, w') → CrabScheme.Tidy w w'

/-- The outcome is tidy, and a value is in step with the slot. -/
def Res.Delivers {ε : Type} (w : WalkWorld) (r : Res ε Value) : Prop :=
  ∀ res w', r = some (res, w') →
    CrabScheme.Tidy w w' ∧ (res.isOk = true → Synced w w')

section Combinators

variable {ε δ α β : Type} {w w₁ : WalkWorld}

lemma Res.Delivers.tidy {r : Res ε Value} (h : r.Delivers w) : r.Tidy w :=
  fun res w' hr => (h res w' hr).1

lemma Res.delivers_none : Res.Delivers w (none : Res ε Value) := by
  intro res w' h
  cases h

lemma Res.delivers_some {res : Except ε Value} {w' : WalkWorld} (h : CrabScheme.Tidy w w')
    (hs : Synced w w') : Res.Delivers w (some (res, w')) := by
  intro r w'' h'
  cases h'
  exact ⟨h, fun _ => hs⟩

lemma Res.delivers_error {e : ε} {w' : WalkWorld} (h : CrabScheme.Tidy w w') :
    Res.Delivers w (some (.error e, w') : Res ε Value) := by
  intro r w'' h'
  cases h'
  exact ⟨h, nofun⟩

lemma Res.Delivers.of_tidy {r : Res ε Value} (h : CrabScheme.Tidy w w₁) (hr : r.Delivers w₁) :
    r.Delivers w := by
  intro res w' hres
  obtain ⟨ht, hs⟩ := hr res w' hres
  exact ⟨h.trans ht, fun hok => .of_tidy h ht (hs hok)⟩

lemma Res.Tidy.bind {r : Res ε α} {k : α → WalkWorld → Res ε β} (hr : r.Tidy w)
    (hk : ∀ a w₁, CrabScheme.Tidy w w₁ → (k a w₁).Tidy w₁) : (r.bind k).Tidy w := by
  intro res w' h
  unfold Res.bind at h
  split at h
  · cases h
  · cases h
    exact hr _ _ rfl
  · rename_i a w₁
    have h1 := hr _ _ rfl
    exact h1.trans (hk a w₁ h1 _ _ h)

lemma Res.Tidy.bind_delivers {r : Res ε α} {k : α → WalkWorld → Res ε Value} (hr : r.Tidy w)
    (hk : ∀ a w₁, CrabScheme.Tidy w w₁ → (k a w₁).Delivers w₁) : (r.bind k).Delivers w := by
  intro res w' h
  unfold Res.bind at h
  split at h
  · cases h
  · cases h
    exact ⟨hr _ _ rfl, nofun⟩
  · rename_i a w₁
    have h1 := hr _ _ rfl
    exact (Res.Delivers.of_tidy h1 (hk a w₁ h1)) _ _ h

lemma Res.Delivers.mapErr {r : Res ε Value} {f : ε → WalkWorld → δ × WalkWorld}
    (hr : r.Delivers w) (hf : ∀ e w₁, CrabScheme.Tidy w₁ (f e w₁).2) :
    (r.mapErr f).Delivers w := by
  intro res w' h
  unfold Res.mapErr at h
  split at h
  · cases h
  · rename_i e w₁
    cases h
    exact ⟨(hr _ _ rfl).1.trans (hf e w₁), nofun⟩
  · cases h
    exact ⟨(hr _ _ rfl).1, fun _ => (hr _ _ rfl).2 rfl⟩

lemma tidy_propagateEvalErr (e : EvalError) (w : WalkWorld) :
    CrabScheme.Tidy w (propagateEvalErr e w).2 := by
  cases e <;> exact .of_eq rfl rfl rfl rfl

lemma tidy_builtinErrToEval (B : Builtins) (e : BuiltinError) (w : WalkWorld) :
    CrabScheme.Tidy w (builtinErrToEval B e w).2 := by
  unfold builtinErrToEval
  repeat' split
  all_goals exact .of_eq rfl rfl rfl rfl

end Combinators

/-! ### Builtins -/

section Builtins

variable (B : Builtins) {w : WalkWorld}

lemma callPure_delivers (b : Builtin) (args : List Value) (w : WalkWorld) :
    Res.Delivers w (some (callPure B b args w)) := by
  unfold callPure
  repeat' split
  · exact Res.delivers_some (tidy_single w) (synced_single w)
  · exact Res.delivers_error (.of_eq rfl rfl rfl rfl)
  · rename_i v h _
    have ht : Tidy w { w with heap := h } := .of_eq rfl rfl rfl rfl
    exact Res.Delivers.of_tidy ht (Res.delivers_some (tidy_single _) (synced_single _))
  · rename_i vs h _
    have ht : Tidy w { w with heap := h } := .of_eq rfl rfl rfl rfl
    exact Res.Delivers.of_tidy ht (Res.delivers_some (tidy_stash _ vs) (synced_stash _ vs))
  · exact Res.delivers_error (.of_eq rfl rfl rfl rfl)

lemma bValues_delivers (args : List Value) (w : WalkWorld) :
    Res.Delivers w (some (bValues args w)) := by
  unfold bValues
  split
  · exact Res.delivers_some (tidy_single w) (synced_single w)
  · exact Res.delivers_some (tidy_stash w args) (synced_stash w args)

lemma bRaise_delivers (args : List Value) (w : WalkWorld) :
    Res.Delivers w (some (bRaise args w)) := by
  unfold bRaise
  split <;> exact Res.delivers_error (.of_eq rfl rfl rfl rfl)

variable {apply : Value → List Value → WalkWorld → Res EvalError Value}
  (happly : ∀ f args w, (apply f args w).Delivers w)

include happly

/-- **`call-with-values`**: the consumer receives what the producer returned. -/
lemma bCallWithValues_delivers (args : List Value) (w : WalkWorld) :
    (bCallWithValues apply args w).Delivers w := by
  unfold bCallWithValues
  split
  · rename_i producer consumer
    have hp := happly producer [] w.startProducer
    split
    · exact Res.delivers_none
    · rename_i e w₁ hr
      have ht := (hp _ _ hr).1.trans (tidy_propagateEvalErr e w₁)
      exact Res.delivers_error (tidy_producer_failed ht)
    · rename_i v w₁ hr
      obtain ⟨ht, hs⟩ := hp _ _ hr
      refine Res.Delivers.of_tidy (tidy_producer v ht (hs rfl)) ?_
      exact (happly consumer _ _).mapErr tidy_propagateEvalErr
  · exact Res.delivers_error (.refl w)

lemma bCallCc_delivers (args : List Value) (w : WalkWorld) :
    (bCallCc apply args w).Delivers w := by
  unfold bCallCc
  split
  · dsimp only
    split
    · exact Res.delivers_none
    · rename_i v w₁ hr
      obtain ⟨ht, hs⟩ := happly _ _ _ _ _ hr
      have ht' : Tidy w w₁ := ht.of_left rfl rfl
      exact Res.delivers_some (ht'.of_right rfl rfl) (hs rfl)
    · rename_i e w₁ hr
      have ht := (happly _ _ _ _ _ hr).1
      have ht' : Tidy w w₁ := ht.of_left rfl rfl
      refine Res.Delivers.of_tidy ht' ?_
      unfold callCcFailed
      dsimp only
      split
      · split
        · have hw : Tidy w₁ { w₁ with pendingEscape := w.pendingEscape } := .of_eq rfl rfl rfl rfl
          exact Res.Delivers.of_tidy hw (Res.delivers_some (tidy_single _) (synced_single _))
        · exact Res.delivers_error (.of_eq rfl rfl rfl rfl)
      · refine Res.delivers_error (Tidy.trans ?_ (tidy_propagateEvalErr _ _))
        exact .of_eq rfl rfl rfl rfl
  · exact Res.delivers_error (.refl w)

/-- **`dynamic-wind`**: the values of the body are held while the `after` thunk runs. -/
lemma bDynamicWind_delivers (args : List Value) (w : WalkWorld) :
    (bDynamicWind apply args w).Delivers w := by
  unfold bDynamicWind
  split
  · rename_i before thunk after
    refine Res.Tidy.bind_delivers ((happly before [] w).mapErr tidy_propagateEvalErr).tidy ?_
    intro _ w0 _
    split
    · exact Res.delivers_none
    · rename_i res w₁ hr1
      obtain ⟨ht1, hs1⟩ := happly _ _ _ _ _ hr1
      split
      · exact Res.delivers_none
      · rename_i r w2 hr2
        have ht2 := (happly _ _ _ _ _ hr2).1
        have ht : Tidy w0 (w2.setDue w₁.ghost.due) := ht1.trans (tidy_after ht2)
        unfold windOutcome
        split
        · -- both have returned
          refine Res.delivers_some (ht.trans (.of_eq rfl rfl rfl rfl)) ?_
          exact synced_after (hs1 rfl) ht1.le ht1.due ht2
        · exact Res.delivers_error ht
        · exact Res.delivers_error (ht.trans (tidy_propagateEvalErr _ _))
  · exact Res.delivers_error (.refl w)

lemma bWithExceptionHandler_delivers (args : List Value) (w : WalkWorld) :
    (bWithExceptionHandler apply args w).Delivers w := by
  unfold bWithExceptionHandler
  have hw : ∀ p w₁, Tidy { w with pendingRaise := none } w₁ →
      Tidy w { w₁ with pendingRaise := p } := fun p w₁ h =>
    (h.of_left (w := w) rfl rfl).of_right rfl rfl
  split
  · split
    · exact Res.delivers_none
    · rename_i v w₁ hr
      obtain ⟨ht, hs⟩ := happly _ _ _ _ _ hr
      exact Res.delivers_some (hw _ _ ht) (hs rfl)
    · rename_i c w₁ hr
      refine Res.Delivers.of_tidy (hw w.pendingRaise _ (happly _ _ _ _ _ hr).1) ?_
      exact (happly _ _ _).mapErr tidy_propagateEvalErr
    · rename_i e w₁ _ hr
      exact Res.delivers_error ((hw _ _ (happly _ _ _ _ _ hr).1).trans (tidy_propagateEvalErr _ _))
  · exact Res.delivers_error (.refl w)

lemma bApply_delivers (args : List Value) (w : WalkWorld) :
    (bApply apply args w).Delivers w := by
  unfold bApply
  split
  · split
    · exact Res.delivers_none
    · exact Res.delivers_error (.refl w)
    · exact (happly _ _ w).mapErr tidy_propagateEvalErr
  · exact Res.delivers_error (.refl w)

end Builtins

/-! ### The evaluator -/

section Lists

variable {ε : Type} {ev last : CoreExpr → WalkWorld → Res ε Value}
  (hev : ∀ e w, (ev e w).Delivers w)

include hev

lemma evalAll_tidy (es : List CoreExpr) (w : WalkWorld) : (evalAll ev es w).Tidy w := by
  induction es generalizing w with
  | nil =>
    intro res w' h
    cases h
    exact .refl w
  | cons e es ih =>
    refine (hev e w).tidy.bind fun v w₁ _ => (ih w₁).bind fun vs w2 _ => ?_
    intro res w' h
    cases h
    exact .refl w2

lemma evalSeq_delivers (hlast : ∀ e w, (last e w).Delivers w) (es : List CoreExpr)
    (w : WalkWorld) : (evalSeq ev last es w).Delivers w := by
  induction es generalizing w with
  | nil => exact Res.delivers_some (tidy_single w) (synced_single w)
  | cons e es ih =>
    cases es with
    | nil => exact hlast e w
    | cons e' es => exact (hev e w).tidy.bind_delivers fun _ w₁ _ => ih w₁

lemma evalInits_tidy (layer : ℕ) (bs : List (Symbol × CoreExpr)) (w : WalkWorld) :
    (evalInits ev layer bs w).Tidy w := by
  induction bs generalizing w with
  | nil =>
    intro res w' h
    cases h
    exact .refl w
  | cons b bs ih =>
    refine (hev b.2 w).tidy.bind fun v w₁ _ => ?_
    intro res w' h
    exact (ih _ _ _ h).of_left rfl rfl

end Lists

lemma tidy_bindArgs (params : List Symbol) (rest selfBind : Option Symbol) (env : Env)
    (self : Value) (args : List Value) (w : WalkWorld) :
    Tidy w (bindArgs params rest selfBind env self args w).2 := by
  cases rest <;> cases selfBind <;> exact .of_eq rfl rfl rfl rfl

lemma tidy_setOrDefine (top : Layers.Ref) (w : WalkWorld) (env : Env) (x : Symbol) (v : Value) :
    Tidy w (setOrDefine top w env x v) := by
  unfold setOrDefine
  split <;> exact .of_eq rfl rfl rfl rfl

section Eval

variable (B : Builtins) (top : Layers.Ref) (maxDepth : ℕ)

/-- What the evaluator does with a given budget is tidy. -/
structure WalkTidy (n : ℕ) : Prop where
  eval : ∀ depth e env w, (eval B top maxDepth n depth e env w).Delivers w
  evalInner : ∀ depth e env w, (evalInner B top maxDepth n depth e env w).Delivers w
  apply : ∀ depth f args w, (applyProcedure B top maxDepth n depth f args w).Delivers w
  builtin : ∀ depth p args w, (callBuiltinProc B top maxDepth n depth p args w).Delivers w
  higher : ∀ depth h act w, (runHigher B top maxDepth n depth h act w).Delivers w

variable {B top maxDepth} {n : ℕ}

section

variable (ih : WalkTidy B top maxDepth n)

include ih

private lemma eval_delivers (depth : ℕ) (e : CoreExpr) (env : Env) (w : WalkWorld)
    : (eval B top maxDepth (n + 1) depth e env w).Delivers w := by
  rw [CrabScheme.eval]
  split
  · exact Res.delivers_error (.refl w)
  · exact ih.evalInner _ _ _ _

private lemma applied_delivers (depth : ℕ) (p : Proc WalkClosure Unit) (vs : List Value)
    (w : WalkWorld) :
    ((callBuiltinProc B top maxDepth n depth p vs w).mapErr (builtinErrToEval B)).Delivers w :=
  (ih.builtin depth p vs w).mapErr (tidy_builtinErrToEval B)

private lemma evalInner_delivers (depth : ℕ) (e : CoreExpr) (env : Env) (w : WalkWorld) :
    (evalInner B top maxDepth (n + 1) depth e env w).Delivers w := by
  cases e with
  | const v => exact Res.delivers_some (tidy_single w) (synced_single w)
  | ref x =>
    rw [CrabScheme.evalInner]
    split
    · exact Res.delivers_some (tidy_single w) (synced_single w)
    · exact Res.delivers_error (.refl w)
  | set x e =>
    refine (ih.eval depth e env w).tidy.bind_delivers fun v w₁ _ => ?_
    exact Res.Delivers.of_tidy (tidy_setOrDefine top w₁ env x v)
      (Res.delivers_some (tidy_single _) (synced_single _))
  | lambda ps body =>
    have ht : Tidy w (w.newProc (.closure ⟨ps, body, env⟩)).2 := .of_eq rfl rfl rfl rfl
    exact Res.Delivers.of_tidy ht (Res.delivers_some (tidy_single _) (synced_single _))
  | ite c t a =>
    exact (ih.eval depth c env w).tidy.bind_delivers fun v w₁ _ => ih.evalInner _ _ _ _
  | begin es =>
    exact evalSeq_delivers (fun e w => ih.eval _ _ _ _) (fun e w => ih.evalInner _ _ _ _) es w
  | letrec bs body =>
    have ht : Tidy w (letrecScope (bs.map Prod.fst) w).2 := .of_eq rfl rfl rfl rfl
    refine Res.Delivers.of_tidy ht ?_
    exact (evalInits_tidy (fun e w => ih.eval _ _ _ _) _ bs _).bind_delivers
      fun _ w₁ _ => ih.evalInner _ _ _ _
  | withMark k v body =>
    exact (ih.eval depth k env w).tidy.bind_delivers fun _ w₁ _ =>
      (ih.eval depth v env w₁).tidy.bind_delivers fun _ w2 _ => ih.evalInner _ _ _ _
  | app f args =>
    refine (ih.eval depth f env w).tidy.bind_delivers fun g w₁ _ => ?_
    refine (evalAll_tidy (fun e w => ih.eval _ _ _ _) args w₁).bind_delivers fun vs w2 _ => ?_
    split
    · exact Res.delivers_error (.refl w2)
    · split
      · exact Res.Delivers.of_tidy (tidy_bindArgs _ _ _ _ _ vs w2) (ih.evalInner _ _ _ _)
      · exact Res.delivers_error (.refl w2)
    · exact Res.delivers_error (.of_eq rfl rfl rfl rfl)
    · exact applied_delivers ih depth _ vs w2

private lemma applyProcedure_delivers (depth : ℕ) (f : Value) (args : List Value) (w : WalkWorld) :
    (applyProcedure B top maxDepth (n + 1) depth f args w).Delivers w := by
  rw [applyProcedure]
  split
  · exact Res.delivers_error (.refl w)
  · split
    · exact Res.Delivers.of_tidy (tidy_bindArgs _ _ _ _ _ args w) (ih.eval _ _ _ _)
    · exact Res.delivers_error (.refl w)
  · exact Res.delivers_error (.of_eq rfl rfl rfl rfl)
  · exact applied_delivers ih depth _ args w

private lemma callBuiltinProc_delivers (depth : ℕ) (p : Proc WalkClosure Unit) (args : List Value)
    (w : WalkWorld) : (callBuiltinProc B top maxDepth (n + 1) depth p args w).Delivers w := by
  have happly := fun f vs w => ih.apply depth f vs w
  cases p with
  | builtin b => exact callPure_delivers B b args w
  | values => exact bValues_delivers args w
  | raise => exact bRaise_delivers args w
  | apply => exact bApply_delivers happly args w
  | callWithValues => exact bCallWithValues_delivers happly args w
  | callCc => exact bCallCc_delivers happly args w
  | dynamicWind => exact bDynamicWind_delivers happly args w
  | withExceptionHandler => exact bWithExceptionHandler_delivers happly args w
  | higher h => exact ih.higher depth h _ w
  | closure c => exact Res.delivers_error (.refl w)
  | continuation id l b => exact Res.delivers_error (.refl w)

end

private lemma runHigher_delivers (ih : WalkTidy B top maxDepth n) (depth h : ℕ)
    (act : HigherAct × Heap) (w : WalkWorld) :
    (runHigher B top maxDepth (n + 1) depth h act w).Delivers w := by
  obtain ⟨act, hp⟩ := act
  have ht : Tidy w { w with heap := hp } := .of_eq rfl rfl rfl rfl
  refine Res.Delivers.of_tidy ht ?_
  cases act with
  | call f args k =>
    refine ((ih.apply depth f args _).mapErr tidy_propagateEvalErr).tidy.bind_delivers ?_
    exact fun v w₁ _ => ih.higher depth h _ w₁
  | done v => exact Res.delivers_some (tidy_single _) (synced_single _)
  | doneValues vs => exact Res.delivers_some (tidy_stash _ vs) (synced_stash _ vs)
  | fail cond => exact Res.delivers_error (.refl _)

variable (B top maxDepth) in
/-- **Every evaluation is tidy.**

**Proof sketch.** Induction on the budget; each function only calls the others with a smaller
one. -/
theorem walkTidy (n : ℕ) : WalkTidy B top maxDepth n := by
  induction n with
  | zero =>
    exact ⟨fun _ _ _ _ => Res.delivers_none, fun _ _ _ _ => Res.delivers_none,
      fun _ _ _ _ => Res.delivers_none, fun _ _ _ _ => Res.delivers_none,
      fun _ _ _ _ => Res.delivers_none⟩
  | succ n ih =>
    exact ⟨eval_delivers ih, evalInner_delivers ih, applyProcedure_delivers ih,
      callBuiltinProc_delivers ih, runHigher_delivers ih⟩

end Eval

end CrabScheme
