import CrabScheme.Machine.Engine

/-!
# Simulations between two codes for one engine

A `Link` says which closures and which loops of an engine correspond. Two machines that differ in
their code only then have equal values, heaps and environments, and procedure objects that
correspond; what is left to show for a simulation of whole machines is `Link.Sim`: an iteration of
the first loop is matched by a run of the second, and entering closures and delivering results
correspond. Everything the machines share, the native procedures and the contexts that wait for
them, is dealt with here once.

## Main results

* `Link.callFromLoop_rel`, `Link.callSync_rel`, `Link.resumePending_rel` — native procedures do the
  same on both sides.
* `Link.Sim.reaches` — what the first machine reaches, the second reaches too.
* `Link.Sim.observed` — the two machines halt together, in states that agree.
-/

namespace CrabScheme

open Transition

lemma forall₂_getElem? {α β : Type} {r : α → β → Prop} {l : List α} {l' : List β}
    (h : List.Forall₂ r l l') (i : ℕ) : Option.Rel r l[i]? l'[i]? := by
  induction h generalizing i with
  | nil => exact .none
  | cons hab _ ih =>
    cases i with
    | zero => exact .some hab
    | succ i => exact ih i

/-! ## Runs of a loop, under any contexts -/

namespace Engine

variable {C L : Type} (E : Engine C L) (B : Builtins)

/-- The loop goes on to another state of the loop. -/
def Runs (l : L) (w : World C L) (l₂ : L) (w₂ : World C L) : Prop :=
  ∀ cs, Reaches (E.next B) ⟨.run l, cs, w⟩ ⟨.run l₂, cs, w₂⟩

/-- The loop goes on by at least one step. -/
def RunsPlus (l : L) (w : World C L) (l₂ : L) (w₂ : World C L) : Prop :=
  ∀ cs, ReachesPlus (E.next B) ⟨.run l, cs, w⟩ ⟨.run l₂, cs, w₂⟩

variable {E B} {l l₁ l₂ : L} {w w₁ w₂ : World C L}

lemma Runs.refl (l : L) (w : World C L) : E.Runs B l w l w := fun _ => .refl _

lemma Runs.trans (h1 : E.Runs B l w l₁ w₁) (h2 : E.Runs B l₁ w₁ l₂ w₂) : E.Runs B l w l₂ w₂ :=
  fun cs => (h1 cs).trans (h2 cs)

lemma RunsPlus.runs (h : E.RunsPlus B l w l₂ w₂) : E.Runs B l w l₂ w₂ := fun cs => (h cs).reaches

lemma Runs.trans_plus (h1 : E.Runs B l w l₁ w₁) (h2 : E.RunsPlus B l₁ w₁ l₂ w₂) :
    E.RunsPlus B l w l₂ w₂ :=
  fun cs => (h1 cs).trans_plus (h2 cs)

lemma runsPlus_of_step (h : E.step l w = .next l₂ w₂) : E.RunsPlus B l w l₂ w₂ := fun cs =>
  .single (by rw [next_run, runLoop_next _ _ h])

lemma runs_of_step (h : E.step l w = .next l₂ w₂) : E.Runs B l w l₂ w₂ :=
  (runsPlus_of_step h).runs

end Engine

/-- The world with other procedure objects and another record of the run. -/
def World.recode {C L : Type} (w : World C L) (ps : List (Proc C L)) (g : Ghost) : World C L :=
  { w with procs := ps, ghost := g }

/-- Waiting native procedures that do the same; what the statements about runs record may
differ. -/
inductive Pending.Like : Pending → Pending → Prop
  | same (op : Pending) : Like op op
  | windAfter {res : Except VmError Value} {r r' : Option (List Value)} {d d' : Due} :
      Like (.windAfter res r d) (.windAfter res r' d')
  | producer {prev : Option (List Value)} {d d' : Due} {c : Value} :
      Like (.producer prev d c) (.producer prev d' c)

/-- **A link**: the closures and the loops that correspond. -/
structure Link (C L : Type) where
  clo : C → C → Prop
  loop : L → L → Prop
  clo_refl : ∀ c, clo c c
  loop_refl : ∀ l, loop l l

namespace Link

variable {C L : Type} (K : Link C L)

/-- Procedure objects that correspond. -/
inductive ProcRel : Proc C L → Proc C L → Prop
  | same (p : Proc C L) : ProcRel p p
  | closure {c c' : C} : K.clo c c' → ProcRel (.closure c) (.closure c')
  | continuation {id : ℕ} {l l' : L} {inFlight : Bool} : K.loop l l' →
      ProcRel (.continuation id l inFlight) (.continuation id l' inFlight)

/-- Worlds that differ in corresponding procedure objects only; of the record of the run, the
assignments are the same. -/
def WorldRel (w w' : World C L) : Prop :=
  ∃ ps g, w' = w.recode ps g ∧ List.Forall₂ K.ProcRel w.procs ps ∧ g.updates = w.ghost.updates

/-- Acts that correspond. -/
inductive ActRel : Act C L → Act C L → Prop
  | value (v : Value) : ActRel (.value v) (.value v)
  | fail (e : VmError) : ActRel (.fail e) (.fail e)
  | closure {c c' : C} {a : ℕ} {args : List Value} : K.clo c c' →
      ActRel (.closure c a args) (.closure c' a args)
  | restore {l l' : L} {v : Value} : K.loop l l' → ActRel (.restore l v) (.restore l' v)
  | capture (f : Value) : ActRel (.capture f) (.capture f)
  | await {op op' : Pending} {f : Value} {args : List Value} : op.Like op' →
      ActRel (.await op f args) (.await op' f args)
  | handOver (f : Value) (args : List Value) : ActRel (.handOver f args) (.handOver f args)
  | diverge : ActRel .diverge .diverge

/-- Dispatches that correspond: the acts and the worlds do. -/
def DispatchRel (r r' : Act C L × World C L) : Prop := K.ActRel r.1 r'.1 ∧ K.WorldRel r.2 r'.2

/-- The loops that two waiting native procedures return to. -/
inductive BackRel : Option (L × Bool) → Option (L × Bool) → Prop
  | none : BackRel none none
  | some {l l' : L} {tail : Bool} : K.loop l l' → BackRel (some (l, tail)) (some (l', tail))

/-- Contexts that correspond. -/
structure CtxRel (c c' : Ctx L) : Prop where
  op : c.op.Like c'.op
  back : K.BackRel c.back c'.back

/-- Control parts that correspond. -/
inductive CtlRel : Ctl L → Ctl L → Prop
  | run {l l' : L} : K.loop l l' → CtlRel (.run l) (.run l')
  | sync (f : Value) (args : List Value) : CtlRel (.sync f args) (.sync f args)
  | ret (r : Except VmError Value) : CtlRel (.ret r) (.ret r)

/-- **States that correspond.** -/
structure StateRel (s s' : State C L) : Prop where
  ctl : K.CtlRel s.ctl s'.ctl
  ctxs : List.Forall₂ K.CtxRel s.ctxs s'.ctxs
  world : K.WorldRel s.world s'.world

variable {K}

lemma ActRel.refl (act : Act C L) : K.ActRel act act := by
  cases act with
  | closure c a args => exact .closure (K.clo_refl c)
  | restore l v => exact .restore (K.loop_refl l)
  | await op f args => exact .await (.same op)
  | _ => constructor

lemma CtxRel.refl (c : Ctx L) : K.CtxRel c c := by
  refine ⟨.same _, ?_⟩
  cases c.back with
  | none => exact .none
  | some b => exact .some (K.loop_refl b.1)

lemma WorldRel.refl (w : World C L) : K.WorldRel w w :=
  ⟨w.procs, w.ghost, rfl, List.forall₂_same.mpr fun p _ => .same p, rfl⟩

/-! ## The shared operations -/

section World

variable {w w' : World C L} (hw : K.WorldRel w w')

include hw

lemma WorldRel.heap_eq : w'.heap = w.heap := by
  obtain ⟨ps, g, rfl, -, -⟩ := hw
  rfl

lemma WorldRel.layers_eq : w'.layers = w.layers := by
  obtain ⟨ps, g, rfl, -, -⟩ := hw
  rfl

lemma WorldRel.single : K.WorldRel w.single w'.single := by
  obtain ⟨ps, g, rfl, hps, hg⟩ := hw
  exact ⟨ps, _, rfl, hps, hg⟩

lemma WorldRel.single_right : K.WorldRel w w'.single := by
  obtain ⟨ps, g, rfl, hps, hg⟩ := hw
  exact ⟨ps, _, rfl, hps, hg⟩

lemma WorldRel.setHeap (h : Heap) : K.WorldRel { w with heap := h } { w' with heap := h } := by
  obtain ⟨ps, g, rfl, hps, hg⟩ := hw
  exact ⟨ps, _, rfl, hps, hg⟩

lemma WorldRel.setRaise (cond : Value) : K.WorldRel (w.setRaise cond) (w'.setRaise cond) := by
  obtain ⟨ps, g, rfl, hps, hg⟩ := hw
  exact ⟨ps, _, rfl, hps, hg⟩

lemma WorldRel.assign (env : Env) (x : Symbol) (v : Value) :
    K.WorldRel (w.assign env x v) (w'.assign env x v) := by
  obtain ⟨ps, g, rfl, hps, hg⟩ := hw
  exact ⟨ps, _, rfl, hps, congrArg (_ :: ·) hg⟩

lemma WorldRel.defineGlobal (env : Env) (x : Symbol) (v : Value) :
    K.WorldRel (w.defineGlobal env x v) (w'.defineGlobal env x v) := by
  obtain ⟨ps, g, rfl, hps, hg⟩ := hw
  exact ⟨ps, _, rfl, hps, congrArg (_ :: ·) hg⟩

lemma WorldRel.defineLocal (env : Env) (x : Symbol) (v : Value) :
    K.WorldRel (w.defineLocal env x v) (w'.defineLocal env x v) := by
  obtain ⟨ps, g, rfl, hps, hg⟩ := hw
  cases env <;> exact ⟨ps, _, rfl, hps, hg⟩

lemma WorldRel.newLayer : w'.newLayer.1 = w.newLayer.1 ∧ K.WorldRel w.newLayer.2 w'.newLayer.2 := by
  obtain ⟨ps, g, rfl, hps, hg⟩ := hw
  exact ⟨rfl, ps, _, rfl, hps, hg⟩

lemma WorldRel.newProc {p p' : Proc C L} (hp : K.ProcRel p p') :
    (w'.newProc p').1 = (w.newProc p).1 ∧ K.WorldRel (w.newProc p).2 (w'.newProc p').2 := by
  obtain ⟨ps, g, rfl, hps, hg⟩ := hw
  refine ⟨?_, ps ++ [p'], g, rfl, List.rel_append hps (.cons hp .nil), hg⟩
  exact congrArg Value.procedure hps.length_eq.symm

lemma WorldRel.bindArgs (params : List Symbol) (rest selfBind : Option Symbol) (env : Env)
    (self : Value) (args : List Value) :
    (bindArgs params rest selfBind env self args w').1 =
        (bindArgs params rest selfBind env self args w).1 ∧
      K.WorldRel (bindArgs params rest selfBind env self args w).2
        (bindArgs params rest selfBind env self args w').2 := by
  obtain ⟨ps, g, rfl, hps, hg⟩ := hw
  cases rest <;> cases selfBind <;> exact ⟨rfl, ps, _, rfl, hps, hg⟩

lemma WorldRel.endFlight (k : ℕ) : K.WorldRel (w.endFlight k) (w'.endFlight k) := by
  obtain ⟨ps, g, rfl, hps, hg⟩ := hw
  refine ⟨_, g, rfl, ?_, hg⟩
  simp only [World.endFlight, World.recode]
  generalize w.procs = qs at hps
  induction hps generalizing k with
  | nil => simp
  | cons hp hps ih =>
    cases k with
    | succ k => exact .cons hp (ih k)
    | zero =>
      refine .cons ?_ hps
      cases hp with
      | same p => exact .same _
      | closure hc => exact .closure hc
      | continuation hl => exact .continuation hl

/-- A value stands for the same kind of procedure on both sides. -/
lemma WorldRel.procOf (f : Value) :
    w.procOf f = none ∧ w'.procOf f = none ∨
      ∃ a p p', w.procOf f = some (a, p) ∧ w'.procOf f = some (a, p') ∧ K.ProcRel p p' := by
  obtain ⟨ps, g, rfl, hps, -⟩ := hw
  cases f with
  | procedure a =>
    have h := forall₂_getElem? hps a
    simp only [World.procOf, World.recode]
    generalize w.procs[a]? = x, ps[a]? = y at h
    cases h with
    | none => exact .inl ⟨rfl, rfl⟩
    | some hp => exact .inr ⟨a, _, _, rfl, rfl, hp⟩
  | _ => exact .inl ⟨rfl, rfl⟩

end World

/-! ## Native procedures -/

section Native

variable {B : Builtins} {w w' : World C L} (hw : K.WorldRel w w')

include hw

lemma callBuiltin_rel (b : Builtin) (args : List Value) :
    K.DispatchRel (callBuiltin B b args w) (callBuiltin B b args w') := by
  obtain ⟨ps, g, rfl, hps, hg⟩ := hw
  cases b <;> simp only [callBuiltin, World.recode] <;> split <;>
    exact ⟨.refl _, ps, _, rfl, hps, hg⟩

lemma syncBuiltin_rel (b : Builtin) (args : List Value) :
    K.DispatchRel (syncBuiltin B b args w) (syncBuiltin B b args w') := by
  obtain ⟨ps, g, rfl, hps, hg⟩ := hw
  cases b <;> simp only [syncBuiltin, World.recode] <;> split <;>
    exact ⟨.refl _, ps, _, rfl, hps, hg⟩

lemma higherMove_rel (h : ℕ) (r : HigherAct × Heap) :
    K.DispatchRel (higherMove h r w) (higherMove h r w') := by
  obtain ⟨ps, g, rfl, hps, hg⟩ := hw
  rcases r with ⟨_ | _ | _ | _, hp⟩ <;> exact ⟨.refl _, ps, _, rfl, hps, hg⟩

lemma callValues_rel (args : List Value) :
    K.DispatchRel (callValues args w) (callValues args w') := by
  obtain ⟨ps, g, rfl, hps, hg⟩ := hw
  unfold callValues
  split <;> exact ⟨.refl _, ps, _, rfl, hps, hg⟩

lemma callCallWithValues_rel (args : List Value) :
    K.DispatchRel (callCallWithValues args w) (callCallWithValues args w') := by
  obtain ⟨ps, g, rfl, hps, hg⟩ := hw
  unfold callCallWithValues
  split
  · exact ⟨.await .producer, ps, _, rfl, hps, hg⟩
  · exact ⟨.fail _, ps, _, rfl, hps, hg⟩

lemma callEscape_rel (id : ℕ) (args : List Value) :
    K.DispatchRel (callEscape id args w) (callEscape id args w') := by
  obtain ⟨ps, g, rfl, hps, hg⟩ := hw
  exact ⟨.fail _, ps, _, rfl, hps, hg⟩

lemma spread_eq (args : List Value) : spread args w' = spread args w := by
  obtain ⟨ps, g, rfl, -, -⟩ := hw
  rfl

lemma callApplied_rel (f : Value) (args : List Value) :
    K.DispatchRel (callApplied B f args w) (callApplied B f args w') := by
  unfold callApplied
  rcases hw.procOf f with ⟨h, h'⟩ | ⟨a, p, p', h, h', hp⟩ <;> rw [h, h']
  · exact ⟨.fail _, hw⟩
  · cases hp with
    | closure hc => exact ⟨.closure hc, hw⟩
    | continuation hl => exact ⟨.fail _, hw⟩
    | same p =>
      cases p with
      | closure c => exact ⟨.closure (K.clo_refl c), hw⟩
      | builtin b => exact syncBuiltin_rel hw b args
      | higher n =>
        rw [hw.heap_eq]
        exact higherMove_rel hw n _
      | values => exact callValues_rel hw args
      | callWithValues => exact callCallWithValues_rel hw args
      | _ => exact ⟨.fail _, hw⟩

/-- **The operator dispatch of a call** is the same on both sides. -/
lemma callFromLoop_rel (f : Value) (args : List Value) :
    K.DispatchRel (callFromLoop B f args w) (callFromLoop B f args w') := by
  have hcont : ∀ {id : ℕ} {l l' : L} {inFlight : Bool}, K.loop l l' →
      K.DispatchRel
        (if inFlight then callEscape id args w
          else (.restore l (args.headD .unspecified), w.single))
        (if inFlight then callEscape id args w'
          else (.restore l' (args.headD .unspecified), w'.single)) := by
    intro id l l' inFlight hl
    cases inFlight with
    | true => exact callEscape_rel hw id args
    | false => exact ⟨.restore hl, hw.single⟩
  unfold callFromLoop
  rcases hw.procOf f with ⟨h, h'⟩ | ⟨a, p, p', h, h', hp⟩ <;> rw [h, h']
  · exact ⟨.fail _, hw⟩
  · cases hp with
    | closure hc => exact ⟨.closure hc, hw⟩
    | continuation hl => exact hcont hl
    | same p =>
      cases p with
      | closure c => exact ⟨.closure (K.clo_refl c), hw⟩
      | continuation id l inFlight => exact hcont (K.loop_refl l)
      | builtin b => exact callBuiltin_rel hw b args
      | higher n =>
        dsimp only
        rw [hw.heap_eq]
        exact higherMove_rel hw n _
      | values => exact callValues_rel hw args
      | callWithValues => exact callCallWithValues_rel hw args
      | raise | withExceptionHandler | callCc | dynamicWind =>
        obtain ⟨ps, g, rfl, hps, hg⟩ := hw
        dsimp only
        split <;> exact ⟨.refl _, ps, _, rfl, hps, hg⟩
      | apply =>
        dsimp only
        rw [spread_eq hw]
        split
        · exact ⟨.diverge, hw⟩
        · exact ⟨.fail _, hw⟩
        · exact callApplied_rel hw _ _

/-- **A call by native code** is the same on both sides. -/
lemma callSync_rel (f : Value) (args : List Value) :
    K.DispatchRel (callSync B f args w) (callSync B f args w') := by
  unfold callSync
  rcases hw.procOf f with ⟨h, h'⟩ | ⟨a, p, p', h, h', hp⟩ <;> rw [h, h']
  · exact ⟨.fail _, hw⟩
  · cases hp with
    | closure hc => exact ⟨.closure hc, hw⟩
    | continuation hl => exact callEscape_rel hw _ args
    | same p =>
      cases p with
      | closure c => exact ⟨.closure (K.clo_refl c), hw⟩
      | continuation id l inFlight => exact callEscape_rel hw id args
      | builtin b => exact syncBuiltin_rel hw b args
      | higher n =>
        dsimp only
        rw [hw.heap_eq]
        exact higherMove_rel hw n _
      | values => exact callValues_rel hw args
      | callWithValues => exact callCallWithValues_rel hw args
      | apply =>
        dsimp only
        rw [spread_eq hw]
        split
        · exact ⟨.diverge, hw⟩
        · exact ⟨.fail _, hw⟩
        · exact ⟨.handOver _ _, hw⟩
      | _ => exact ⟨.fail _, hw⟩

lemma resumeCallCc_rel (id k : ℕ) (r : Except VmError Value) :
    K.DispatchRel (resumeCallCc id k r w) (resumeCallCc id k r w') := by
  have hend := hw.endFlight k
  have hescape : w'.pendingEscape = w.pendingEscape := by
    obtain ⟨ps, g, rfl, -, -⟩ := hw
    rfl
  unfold resumeCallCc
  rw [hescape]
  split
  · exact ⟨.value _, hend⟩
  · split
    · split
      · obtain ⟨ps, g, hps, hrel, hg⟩ := hend
        rw [hps]
        exact ⟨.value _, ps, _, rfl, hrel, hg⟩
      · exact ⟨.fail _, hend⟩
    · exact ⟨.fail _, hend⟩
  · exact ⟨.fail _, hend⟩

/-- **A waiting native procedure** does the same on both sides. -/
lemma resumePending_rel {op op' : Pending} (hop : op.Like op') (r : Except VmError Value) :
    K.DispatchRel (resumePending B op r w) (resumePending B op' r w') := by
  have hw0 := hw
  obtain ⟨ps, g, rfl, hps, hg⟩ := hw
  cases hop with
  | windAfter =>
    rename_i res _ _ _ _
    cases res <;> cases r <;> exact ⟨.refl _, ps, _, rfl, hps, hg⟩
  | producer => cases r <;> exact ⟨.refl _, ps, _, rfl, hps, hg⟩
  | same op =>
    cases op with
    | callCc id k => exact resumeCallCc_rel hw0 id k r
    | windThunk after => exact ⟨.await .windAfter, ps, _, rfl, hps, hg⟩
    | handlerThunk handler prev =>
      rcases r with ⟨_ | _ | _⟩ | _ <;> exact ⟨.refl _, ps, _, rfl, hps, hg⟩
    | windAfter res result due =>
      cases res <;> cases r <;> exact ⟨.refl _, ps, _, rfl, hps, hg⟩
    | higher h k =>
      cases r with
      | ok v => exact higherMove_rel hw0 h _
      | error e => exact ⟨.fail e, hw0⟩
    | _ => cases r <;> exact ⟨.refl _, ps, _, rfl, hps, hg⟩

end Native

/-! ## Simulations -/

section Obligations

variable (K) (B : Builtins) (E : Engine C L)

/-- **Iterations that correspond.** The second loop may run on before it corresponds again. -/
inductive StepRel : LoopStep C L → LoopStep C L → Prop
  | next {l l₁ l₂ : L} {w w₁ w₂ : World C L} : K.loop l l₂ → K.WorldRel w w₂ →
      E.Runs B l₁ w₁ l₂ w₂ → StepRel (.next l w) (.next l₁ w₁)
  | halt {r : Except VmError Value} {w w' : World C L} : K.WorldRel w w' →
      StepRel (.halt r w) (.halt r w')
  | call {f : Value} {args : List Value} {tail : Bool} {l l' : L} {w w' : World C L} :
      K.loop l l' → K.WorldRel w w' → StepRel (.call f args tail l w) (.call f args tail l' w')

/-- An iteration of the first loop is matched by one of the second, or by several that make no
call. -/
inductive StepSim (l' : L) (w' : World C L) (r : LoopStep C L) : Prop
  | one : K.StepRel B E r (E.step l' w') → StepSim l' w' r
  | more {l₂ l₂' : L} {w₂ w₂' : World C L} : r = .next l₂ w₂ → K.loop l₂ l₂' →
      K.WorldRel w₂ w₂' → E.RunsPlus B l' w' l₂' w₂' → StepSim l' w' r

/-- A result is delivered on both sides. -/
def DeliverRel : L ⊕ Except VmError Value → L ⊕ Except VmError Value → Prop
  | .inl l, .inl l' => K.loop l l'
  | .inr r, .inr r' => r = r'
  | _, _ => False

/-- **What has to be shown of the loops.** -/
structure Sim : Prop where
  step : ∀ {l l' w w'}, K.loop l l' → K.WorldRel w w' → K.StepSim B E l' w' (E.step l w)
  deliver : ∀ {l l'} (tail v), K.loop l l' →
    K.DeliverRel (E.deliver l tail v) (E.deliver l' tail v)
  resume : ∀ {l l'} (v), K.loop l l' → K.loop (E.resume l v) (E.resume l' v)
  enter : ∀ {l l' c c' w w'} (tail a args), K.loop l l' → K.clo c c' → K.WorldRel w w' →
    K.StepRel B E (E.enter l tail c a args w) (E.enter l' tail c' a args w')
  start : ∀ {c c' w w'} (a args), K.clo c c' → K.WorldRel w w' →
    K.StepRel B E (E.start c a args w) (E.start c' a args w')

/-- The second state comes to correspond to the first. -/
def Follows (t t' : State C L) : Prop := ∃ u', K.StateRel t u' ∧ Reaches (E.next B) t' u'

end Obligations

lemma Follows.of_rel {B : Builtins} {E : Engine C L} {t t' : State C L} (h : K.StateRel t t') :
    K.Follows B E t t' :=
  ⟨t', h, .refl t'⟩

namespace Sim

variable {B : Builtins} {E : Engine C L} (hsim : K.Sim B E) {l l' : L} {tail : Bool}
variable {cs cs' : List (Ctx L)} {w w' : World C L} {r r' : Act C L × World C L}
variable {old old' : State C L}

include hsim in
lemma deliverTo (hl : K.loop l l') (v : Value) (hcs : List.Forall₂ K.CtxRel cs cs')
    (hw : K.WorldRel w w') :
    K.StateRel (E.deliverTo l tail v cs w) (E.deliverTo l' tail v cs' w') := by
  have h := hsim.deliver tail v hl
  unfold Engine.deliverTo
  revert h
  generalize E.deliver l tail v = x, E.deliver l' tail v = y
  intro h
  rcases x with l₂ | r <;> rcases y with l2' | r'
  · exact ⟨.run h, hcs, hw⟩
  · exact h.elim
  · exact h.elim
  · obtain rfl : r = r' := h
    exact ⟨.ret r, hcs, hw⟩

lemma afterLoop {r r' : LoopStep C L} (h : K.StepRel B E r r')
    (hcs : List.Forall₂ K.CtxRel cs cs') (hold : K.StateRel old old') :
    K.Follows B E (Engine.afterLoop cs old r) (Engine.afterLoop cs' old' r') := by
  cases h with
  | @next _ _ l₂ _ _ w₂ hl hw hrun => exact ⟨⟨.run l₂, cs', w₂⟩, ⟨.run hl, hcs, hw⟩, hrun cs'⟩
  | halt hw => exact .of_rel ⟨.ret _, hcs, hw⟩
  | call _ _ => exact .of_rel hold

include hsim

/-- **The call of a procedure by corresponding loops.** -/
lemma afterCall (hl : K.loop l l') (hcs : List.Forall₂ K.CtxRel cs cs') (hr : K.DispatchRel r r')
    (hold : K.StateRel old old') :
    K.Follows B E (E.afterCall l tail cs old r) (E.afterCall l' tail cs' old' r') := by
  obtain ⟨act, w⟩ := r
  obtain ⟨act', w'⟩ := r'
  obtain ⟨hact, hw⟩ := hr
  cases hact with
  | value v => exact .of_rel (hsim.deliverTo hl v hcs hw)
  | fail e => exact .of_rel ⟨.ret _, hcs, hw⟩
  | closure hc => exact afterLoop (hsim.enter _ _ _ hl hc hw) hcs hold
  | restore hs => exact .of_rel ⟨.run (hsim.resume _ hs), hcs, hw⟩
  | capture f =>
    obtain ⟨ps, g, rfl, hps, hg⟩ := hw
    have hlen := hps.length_eq
    refine .of_rel ⟨?_, .cons ⟨?_, .some hl⟩ hcs, ps ++ [.continuation w.nextCont l' true], g, rfl,
      List.rel_append hps (.cons (.continuation hl) .nil), hg⟩
    · simp only [Engine.afterCall, World.newProc, hlen]
      exact .sync _ _
    · simp only [hlen]
      exact .same _
  | await hop => exact .of_rel ⟨.sync _ _, .cons ⟨hop, .some hl⟩ hcs, hw⟩
  | handOver f args => exact .of_rel ⟨.sync f args, hcs, hw⟩
  | diverge => exact .of_rel hold

/-- **The call of a procedure by native code** on both sides. -/
lemma afterSync (hcs : List.Forall₂ K.CtxRel cs cs') (hr : K.DispatchRel r r')
    (hold : K.StateRel old old') :
    K.Follows B E (E.afterSync cs old r) (E.afterSync cs' old' r') := by
  obtain ⟨act, w⟩ := r
  obtain ⟨act', w'⟩ := r'
  obtain ⟨hact, hw⟩ := hr
  cases hact with
  | value v => exact .of_rel ⟨.ret _, hcs, hw⟩
  | fail e => exact .of_rel ⟨.ret _, hcs, hw⟩
  | closure hc => exact afterLoop (hsim.start _ _ hc hw) hcs hold
  | await hop => exact .of_rel ⟨.sync _ _, .cons ⟨hop, .none⟩ hcs, hw⟩
  | handOver f args => exact .of_rel ⟨.sync f args, hcs, hw⟩
  | _ => exact .of_rel hold

/-- **A waiting native procedure goes on** on both sides. -/
lemma afterResume {back back' : Option (L × Bool)} (hback : K.BackRel back back')
    (hcs : List.Forall₂ K.CtxRel cs cs') (hr : K.DispatchRel r r') (hold : K.StateRel old old') :
    K.StateRel (E.afterResume back cs old r) (E.afterResume back' cs' old' r') := by
  obtain ⟨act, w⟩ := r
  obtain ⟨act', w'⟩ := r'
  obtain ⟨hact, hw⟩ := hr
  cases hact with
  | value v =>
    cases hback with
    | none => exact ⟨.ret _, hcs, hw⟩
    | some hl => exact hsim.deliverTo hl v hcs hw
  | fail e => exact ⟨.ret _, hcs, hw⟩
  | await hop => exact ⟨.sync _ _, .cons ⟨hop, hback⟩ hcs, hw⟩
  | _ => exact hold

lemma runLoop (hl : K.loop l l') (hcs : List.Forall₂ K.CtxRel cs cs') (hw : K.WorldRel w w') :
    ∃ t', ReachesPlus (E.next B) ⟨.run l', cs', w'⟩ t' ∧
      K.StateRel (E.runLoop B l cs w) t' := by
  have hold : K.StateRel ⟨.run l, cs, w⟩ ⟨.run l', cs', w'⟩ := ⟨.run hl, hcs, hw⟩
  cases hsim.step hl hw with
  | more hr hl2 hw2 hrun =>
    rw [E.runLoop_next B hr]
    exact ⟨_, hrun cs', .run hl2, hcs, hw2⟩
  | one h =>
    have hfol : K.Follows B E (E.runLoop B l cs w) (E.runLoop B l' cs' w') := by
      generalize hs : E.step l w = r, hs' : E.step l' w' = r' at h
      cases h with
      | call hl2 hw2 =>
        rw [E.runLoop_call B hs, E.runLoop_call B hs']
        exact hsim.afterCall hl2 hcs (callFromLoop_rel hw2 _ _) hold
      | next hl2 hw2 hrun =>
        rw [E.runLoop_next B hs, E.runLoop_next B hs']
        exact ⟨_, ⟨.run hl2, hcs, hw2⟩, hrun cs'⟩
      | halt hw2 =>
        rw [E.runLoop_halt B hs, E.runLoop_halt B hs']
        exact .of_rel ⟨.ret _, hcs, hw2⟩
    obtain ⟨u', hu', hrun⟩ := hfol
    exact ⟨u', ⟨_, E.next_run B l' cs' w', hrun⟩, hu'⟩

/-- **One step** of the first machine is matched by at least one step of the second. -/
theorem next {s t s' : State C L} (hs : K.StateRel s s') (hst : E.next B s = some t) :
    ∃ t', ReachesPlus (E.next B) s' t' ∧ K.StateRel t t' := by
  obtain ⟨ctl, cs, w⟩ := s
  obtain ⟨ctl', cs', w'⟩ := s'
  have hold := hs
  obtain ⟨hctl, hcs, hw⟩ := hs
  cases hctl with
  | run hl =>
    cases hst
    exact hsim.runLoop hl hcs hw
  | sync f args =>
    cases hst
    obtain ⟨u', hu', hrun⟩ := hsim.afterSync hcs (callSync_rel hw f args) hold
    exact ⟨u', ⟨_, rfl, hrun⟩, hu'⟩
  | ret r =>
    cases hcs with
    | nil => cases hst
    | cons hc hcs =>
      cases hst
      exact ⟨_, .single rfl, hsim.afterResume hc.back hcs (resumePending_rel hw hc.op r) hold⟩

/-- **Every state the first machine reaches** corresponds to one the second machine reaches. -/
theorem reaches {s t s' : State C L} (hs : K.StateRel s s') (ht : Reaches (E.next B) s t) :
    ∃ t', Reaches (E.next B) s' t' ∧ K.StateRel t t' := by
  refine reaches_of_sim (fun a b c hab hac => ?_) ht hs
  obtain ⟨c', hc', hrel⟩ := hsim.next hab hac
  exact ⟨c', hc'.reaches, hrel⟩

end Sim

end Link

/-! ## What is observed of a run -/

section Observed

variable {C L C' L' C₂ L₂ : Type}

/-- Halted states that cannot be told apart: the result or error, the variable updates and the
environments. -/
def State.Agrees (s : State C L) (s' : State C' L') : Prop :=
  s.outcome = s'.outcome ∧ s.world.ghost.updates = s'.world.ghost.updates ∧
    s.world.layers = s'.world.layers

/-- **Runs that cannot be told apart**: they halt together, in states that agree. -/
def Observed (step : State C L → Option (State C L)) (step' : State C' L' → Option (State C' L'))
    (s : State C L) (s' : State C' L') : Prop :=
  (∀ t, Halts step s t → ∃ t', Halts step' s' t' ∧ t.Agrees t') ∧
    ∀ t', Halts step' s' t' → ∃ t, Halts step s t ∧ t.Agrees t'

variable {step : State C L → Option (State C L)} {step' : State C' L' → Option (State C' L')}
variable {step₂ : State C₂ L₂ → Option (State C₂ L₂)}

lemma State.Agrees.trans {s : State C L} {s' : State C' L'} {s2 : State C₂ L₂}
    (h : s.Agrees s') (h' : s'.Agrees s2) : s.Agrees s2 :=
  ⟨h.1.trans h'.1, h.2.1.trans h'.2.1, h.2.2.trans h'.2.2⟩

lemma Observed.trans {s : State C L} {s' : State C' L'} {s2 : State C₂ L₂}
    (h : Observed step step' s s') (h' : Observed step' step₂ s' s2) :
    Observed step step₂ s s2 := by
  constructor
  · intro t ht
    obtain ⟨t', ht', hagree⟩ := h.1 t ht
    obtain ⟨t2, ht2, hagree2⟩ := h'.1 t' ht'
    exact ⟨t2, ht2, hagree.trans hagree2⟩
  · intro t2 ht2
    obtain ⟨t', ht', hagree2⟩ := h'.2 t2 ht2
    obtain ⟨t, ht, hagree⟩ := h.2 t' ht'
    exact ⟨t, ht, hagree.trans hagree2⟩

variable {K : Link C L} {B : Builtins} {E : Engine C L} {s s' : State C L}

/-- States that correspond cannot be told apart, and they halt together. -/
lemma Link.StateRel.agrees (h : K.StateRel s s') :
    s.Agrees s' ∧ (E.next B s = none → E.next B s' = none) := by
  obtain ⟨ctl, cs, w⟩ := s
  obtain ⟨ctl', cs', w'⟩ := s'
  obtain ⟨hctl, hcs, hw⟩ := h
  obtain ⟨ps, g, rfl, -, hg⟩ := hw
  cases hctl with
  | run _ => exact ⟨⟨rfl, hg.symm, rfl⟩, nofun⟩
  | sync _ _ => exact ⟨⟨rfl, hg.symm, rfl⟩, nofun⟩
  | ret r =>
    cases hcs with
    | nil => exact ⟨⟨rfl, hg.symm, rfl⟩, fun _ => rfl⟩
    | cons _ _ => exact ⟨⟨rfl, hg.symm, rfl⟩, nofun⟩

/-- **With a simulation, the two runs cannot be told apart.** -/
theorem Link.Sim.observed (hsim : K.Sim B E) (hs : K.StateRel s s') :
    Observed (E.next B) (E.next B) s s' := by
  have hhalt : ∀ a b, K.StateRel a b → E.next B a = none → E.next B b = none :=
    fun a b hab => hab.agrees.2
  constructor
  · intro t ht
    obtain ⟨t', ht', hrel⟩ := hsim.reaches hs ht.1
    exact ⟨t', ⟨ht', hhalt t t' hrel ht.2⟩, (hrel.agrees (B := B) (E := E)).1⟩
  · intro t' ht'
    obtain ⟨t, ht, hrel⟩ := halts_of_sim_back (fun a b c => hsim.next) hhalt ht' hs
    exact ⟨t, ht, (hrel.agrees (B := B) (E := E)).1⟩

end Observed

end CrabScheme
