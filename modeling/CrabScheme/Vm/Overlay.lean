import CrabScheme.Vm.Bytecode

/-!
# Actors over a shared base environment

In the shared-runtime model every actor runs in an overlay of its own, a define boundary whose
parent is one shared base environment. The file models any number of such actors, scheduled in
any order, and asks which steps of one actor change what the base or another overlay sees.

## Main results

* `vmNext_layers` — what a machine step does to the environments.
* `Shared.interleaving_isolated_iff` — along every schedule, the steps are isolated
  exactly when their stores stay inside.
-/

namespace CrabScheme

open Layers

/-! ## What a step does to the environments -/

/-- The layer, name and value an instruction writes. -/
def instStore (i : Inst) (env : Env) (st : List Value) (s : Store Symbol Value) :
    Option (ℕ × Symbol × Value) :=
  match i, st with
  | .setVar x, v :: _ => (s.assignTarget env x).map fun r => (r.id, x, v)
  | .defineGlobal x, v :: _ => (defineRoot env).map fun r => (r.id, x, v)
  | .defineLocal x, v :: _ => env.head?.map fun r => (r.id, x, v)
  | _, _ => none

/-- **The store the next step of a machine makes.** -/
def storeOf (s : VmState) : Option (ℕ × Symbol × Value) :=
  match s.ctl with
  | .run ⟨f :: _, st⟩ =>
    match f.insts[f.ip]? with
    | some i => instStore i f.env st s.world.layers
    | none => none
  | _ => none

/-- The environments after a store, or grown by fresh layers when there is none. -/
def Effect (s : Store Symbol Value) (store : Option (ℕ × Symbol × Value))
    (s' : Store Symbol Value) : Prop :=
  match store with
  | some (t, x, v) => s' = s.define t x v
  | none => s.Extends s'

lemma Effect.none_of_eq {s s' : Store Symbol Value} (h : s' = s) : Effect s none s' :=
  h ▸ Store.Extends.refl s

lemma bindArgs_extends {C L : Type} (params : List Symbol) (rest selfBind : Option Symbol)
    (env : Env) (self : Value) (args : List Value) (w : World C L) :
    w.layers.Extends (bindArgs params rest selfBind env self args w).2.layers := by
  have h1 := (Store.extends_alloc w.layers).defineAll (le_refl _) (params.zip args)
  cases rest <;> cases selfBind
  · exact h1
  · exact h1.define (le_refl _) _ _
  · exact h1.define (le_refl _) _ _
  · exact (h1.define (le_refl _) _ _).define (le_refl _) _ _

section Step

variable (B : Builtins)

lemma applyFastPrimop_layers (fp : FastPrimopBody) (args : List Value) (w : VmWorld) :
    (applyFastPrimop B fp args w).2.layers = w.layers := by
  unfold applyFastPrimop
  repeat' split
  all_goals rfl

/-- **One instruction** writes the store `instStore` names, or only adds layers. -/
lemma exec_effect (i : Inst) (f : Frame) (fs : List Frame) (st : List Value) (w : VmWorld) :
    Effect w.layers (instStore i f.env st w.layers) (exec B i f fs st w).world.layers := by
  cases i with
  | setVar x =>
    cases st with
    | nil => exact Effect.none_of_eq rfl
    | cons v st =>
      have h := Store.assign_eq_define w.layers f.env x v
      cases ht : w.layers.assignTarget f.env x <;> rw [ht] at h <;>
        simp [instStore, ht, exec, popping, LoopStep.world, World.assign, World.record, Effect, h,
          Store.Extends.refl]
  | defineGlobal x =>
    cases st with
    | nil => exact Effect.none_of_eq rfl
    | cons v st =>
      cases ht : defineRoot f.env <;>
        simp [instStore, ht, exec, popping, LoopStep.world, World.defineGlobal, World.record,
          Store.defineGlobal, Effect, Store.Extends.refl]
  | defineLocal x =>
    cases st with
    | nil => exact Effect.none_of_eq rfl
    | cons v st =>
      cases ht : f.env <;>
        simp [instStore, ht, exec, popping, LoopStep.world, World.defineLocal, Effect,
          Store.Extends.refl]
  | enterScope => exact Store.extends_alloc w.layers
  | _ =>
    refine Effect.none_of_eq ?_
    simp only [exec, execFx2, execBranch, execCall, popFrame, popping]
    repeat' split
    all_goals rfl

lemma deliverFast_world (l : VmLoop) (tail : Bool) (r : Except VmError Value × VmWorld) :
    (deliverFast l tail r).world = r.2 := by
  unfold deliverFast
  repeat' split
  all_goals rfl

lemma enter_extends (l : VmLoop) (tail : Bool) (c : VmClosure) (a : ℕ) (args : List Value)
    (w : VmWorld) : w.layers.Extends (l.enter B tail c a args w).world.layers := by
  unfold VmLoop.enter
  split
  · split
    · split
      · rw [deliverFast_world, applyFastPrimop_layers]
        exact Store.Extends.refl _
      · unfold pushBody
        split <;> exact bindArgs_extends _ _ _ _ _ _ w
    · exact Store.Extends.refl _
  · exact Store.Extends.refl _

lemma startClosure_extends (c : VmClosure) (a : ℕ) (args : List Value) (w : VmWorld) :
    w.layers.Extends (startClosure B c a args w).world.layers := by
  unfold startClosure
  split
  · split
    · split
      · rw [LoopStep.world, applyFastPrimop_layers]
        exact Store.Extends.refl _
      · exact bindArgs_extends _ _ _ _ _ _ w
    · exact Store.Extends.refl _
  · exact Store.Extends.refl _

lemma afterLoop_extends {cs : List (Ctx VmLoop)} {old : VmState} {w : VmWorld} {r : VmStep}
    (h : w.layers.Extends r.world.layers) (hold : old.world.layers = w.layers) :
    w.layers.Extends (Engine.afterLoop cs old r).world.layers := by
  cases r with
  | next l w' => exact h
  | halt r w' => exact h
  | call f args tail l w' => exact hold ▸ Store.Extends.refl _

lemma follows_extends {cs : List (Ctx VmLoop)} {old s' : VmState} {back : Option (VmLoop × Bool)}
    {r : Act VmClosure VmLoop × VmWorld} (hf : (vmEngine B).Follows cs old back r s')
    (hr : r.2.layers = old.world.layers) : old.world.layers.Extends s'.world.layers := by
  rw [← hr]
  cases hf with
  | enter c a args w => exact afterLoop_extends (enter_extends B _ _ c a args w) hr.symm
  | start c a args w => exact afterLoop_extends (startClosure_extends B c a args w) hr.symm
  | stuck => exact hr ▸ Store.Extends.refl _
  | _ => exact Store.Extends.refl _

/-- An iteration of the loop makes the store `storeOf` names, or only adds layers; a call makes
none. -/
lemma dispatch_effect {s : VmState} {l : VmLoop} (hctl : s.ctl = .run l) :
    Effect s.world.layers (storeOf s) (dispatch B l s.world).world.layers ∧
      ∀ g args tail l' w, dispatch B l s.world = .call g args tail l' w →
        w = s.world ∧ storeOf s = none := by
  obtain ⟨_ | ⟨f, fs⟩, st⟩ := l
  · simp only [storeOf, hctl]
    exact ⟨Store.Extends.refl _, fun g args tail l' w h => by cases h⟩
  · simp only [storeOf, hctl, dispatch]
    cases f.insts[f.ip]? with
    | some i =>
      refine ⟨exec_effect B i { f with ip := f.ip + 1 } fs st s.world, fun g args tail l' w h => ?_⟩
      obtain ⟨n, hn, -, -, -, hw⟩ := exec_eq_call h
      refine ⟨hw, ?_⟩
      rcases hn with ⟨rfl, -⟩ | ⟨rfl, -⟩ <;> rfl
    | none =>
      dsimp only [popFrame]
      split <;> exact ⟨Store.Extends.refl _, fun g args tail l' w h => by cases h⟩

/-- **What a machine step does to the environments**: it makes the store `storeOf` names, or only
adds layers. -/
lemma vmNext_layers {s s' : VmState} (h : vmNext B s = some s') :
    Effect s.world.layers (storeOf s) s'.world.layers := by
  cases Engine.steps_of_next h with
  | @loop l r hctl hl =>
    obtain ⟨heffect, hcall⟩ := dispatch_effect B hctl
    rw [show dispatch B l s.world = r from hl] at heffect hcall
    cases r with
    | next | halt => exact heffect
    | call g args tail l' w =>
      rw [(hcall g args tail l' w rfl).2]
      exact Store.Extends.refl _
  | @call l l' g args tail w _ hctl hl hf =>
    obtain ⟨rfl, hnone⟩ := (dispatch_effect B hctl).2 g args tail l' w hl
    rw [hnone]
    exact follows_extends B hf (callFromLoop_dispatches B args s.world g).layers
  | @sync f args _ hctl hf =>
    simp only [storeOf, hctl]
    exact follows_extends B hf (callSync_dispatches B args s.world f).layers
  | @resume r c cs _ hctl hcs hf =>
    simp only [storeOf, hctl]
    exact follows_extends B hf (resumePending_layers B c.op r s.world)

end Step

/-! ## Actors over a shared base -/

/-- An actor: its overlay, and the machine that runs its program. -/
structure Actor where
  overlay : Ref
  ctl : Ctl VmLoop
  ctxs : List (Ctx VmLoop)

/-- **Actors over a shared base environment.** Overlays are layers of their own, and the layers
of the base and of the overlays exist. -/
structure Shared where
  base : Env
  actors : List Actor
  world : VmWorld
  overlay_not_base : ∀ a ∈ actors, ∀ r ∈ base, a.overlay.id ≠ r.id
  overlay_nodup : (actors.map fun a => a.overlay.id).Nodup
  base_allocated : ∀ r ∈ base, r.id < world.layers.size
  overlay_allocated : ∀ a ∈ actors, a.overlay.id < world.layers.size

namespace Shared

variable (B : Builtins)

/-- The environment an actor's program is run in. -/
def envOf (S : Shared) (a : Actor) : Env := a.overlay :: S.base

/-- The machine of an actor, on the shared state. -/
def machine (S : Shared) (a : Actor) : VmState := ⟨a.ctl, a.ctxs, S.world⟩

lemma Effect.size_le {s s' : Store Symbol Value} {o : Option (ℕ × Symbol × Value)}
    (h : Effect s o s') : s.size ≤ s'.size := by
  match o with
  | none => exact h.1
  | some (t, x, v) =>
    have h' : s' = s.define t x v := h
    simp [h']

/-- **One step of actor `i`**; nothing happens when it has finished or does not exist. -/
def step (S : Shared) (i : ℕ) : Shared :=
  match ha : S.actors[i]? with
  | none => S
  | some a =>
    match hs : vmNext B (S.machine a) with
    | none => S
    | some s' =>
      { base := S.base
        actors := S.actors.set i ⟨a.overlay, s'.ctl, s'.ctxs⟩
        world := s'.world
        overlay_not_base := by
          intro b hb r hr
          rcases List.mem_or_eq_of_mem_set hb with hb | rfl
          · exact S.overlay_not_base b hb r hr
          · exact S.overlay_not_base a (List.mem_of_getElem? ha) r hr
        overlay_nodup := by
          have hset : (S.actors.set i ⟨a.overlay, s'.ctl, s'.ctxs⟩).map (fun a => a.overlay.id) =
              S.actors.map fun a => a.overlay.id := by
            rw [List.map_set]
            apply List.ext_getElem?
            intro j
            rw [List.getElem?_set]
            split
            · subst_vars
              obtain ⟨hi, rfl⟩ := List.getElem?_eq_some_iff.mp ha
              simp [hi]
            · rfl
          rw [hset]
          exact S.overlay_nodup
        base_allocated := fun r hr =>
          lt_of_lt_of_le (S.base_allocated r hr) (Effect.size_le (vmNext_layers B hs))
        overlay_allocated := by
          intro b hb
          refine lt_of_lt_of_le ?_ (Effect.size_le (vmNext_layers B hs))
          rcases List.mem_or_eq_of_mem_set hb with hb | rfl
          · exact S.overlay_allocated b hb
          · exact S.overlay_allocated a (List.mem_of_getElem? ha) }

/-- A schedule is run: one step of each actor named, in order. -/
def run (S : Shared) : List ℕ → Shared
  | [] => S
  | i :: sched => (S.step B i).run sched

/-- What is seen for a name from an environment. -/
def sees (S : Shared) (env : Env) (x : Symbol) : Option Value := S.world.layers.get env x

/-- The environments that a step of actor `i` must leave alone: the base and the overlays of
the other actors. -/
def Foreign (S : Shared) (i : ℕ) (env : Env) : Prop :=
  env = S.base ∨ ∃ j a, j ≠ i ∧ S.actors[j]? = some a ∧ env = S.envOf a

/-- **A step of actor `i` is isolated**: no name changes its value in the base or in another
overlay. -/
def Isolated (S : Shared) (i : ℕ) : Prop :=
  ∀ env, S.Foreign i env → ∀ x, (S.step B i).sees env x = S.sees env x

/-- **The store of actor `i` stays inside**: the layer it writes is not one through which the
base or another overlay reads the name, unless the value is the one read already. -/
def StaysInside (S : Shared) (i : ℕ) : Prop :=
  ∀ a t x v, S.actors[i]? = some a → storeOf (S.machine a) = some (t, x, v) →
    ∀ env, S.Foreign i env → S.world.layers.exposes env t x = true → S.sees env x = some v

lemma step_cases (S : Shared) (i : ℕ) :
    (S.step B i = S ∧ ∀ a, S.actors[i]? = some a → storeOf (S.machine a) = none) ∨
    ∃ a s', S.actors[i]? = some a ∧ vmNext B (S.machine a) = some s' ∧
      (S.step B i).world = s'.world := by
  unfold step
  split
  · rename_i h
    exact .inl ⟨rfl, fun a ha => by rw [h] at ha; cases ha⟩
  · rename_i a ha
    split
    · rename_i hs
      refine .inl ⟨rfl, fun b hb => ?_⟩
      rw [ha] at hb
      cases hb
      -- only a returned result halts, and it stores nothing
      unfold storeOf
      split
      · rename_i hctl
        simp [vmNext, Engine.next, hctl] at hs
      · rfl
    · rename_i s' hs
      exact .inr ⟨a, s', ha, hs, rfl⟩

lemma Foreign.allocated {S : Shared} {i : ℕ} {env : Env} (h : S.Foreign i env) :
    ∀ r ∈ env, r.id < S.world.layers.size := by
  rcases h with rfl | ⟨j, a, -, ha, rfl⟩
  · exact S.base_allocated
  · intro r hr
    rcases List.mem_cons.mp hr with rfl | hr
    · exact S.overlay_allocated a (List.mem_of_getElem? ha)
    · exact S.base_allocated r hr

/-- **One step is isolated exactly when its store stays inside.** -/
lemma isolated_iff (S : Shared) (i : ℕ) : S.Isolated B i ↔ S.StaysInside i := by
  rcases S.step_cases B i with ⟨hS, hnone⟩ | ⟨a, s', ha, hs, hw⟩
  · refine ⟨fun _ b t x v hb hst => ?_, fun _ env _ x => by rw [hS]⟩
    rw [hnone b hb] at hst
    cases hst
  have heff := vmNext_layers B hs
  have hsees : ∀ env x, (S.step B i).sees env x = s'.world.layers.get env x := by
    intro env x
    rw [sees, hw]
  constructor
  · intro hiso b t x v hb hst env henv hexp
    rw [ha] at hb
    cases hb
    rw [hst] at heff
    have hdef : s'.world.layers = S.world.layers.define t x v := heff
    have := hiso env henv x
    rw [hsees, hdef, Store.get_define, if_pos ⟨rfl, hexp⟩] at this
    exact this.symm
  · intro hstay env henv x
    rw [hsees]
    cases hst : storeOf (S.machine a) with
    | none =>
      rw [hst] at heff
      exact Store.Extends.get_eq heff henv.allocated x
    | some store =>
      obtain ⟨t, y, v⟩ := store
      rw [hst] at heff
      have hdef : s'.world.layers = S.world.layers.define t y v := heff
      rw [hdef, Store.get_define]
      split
      · rename_i h
        obtain ⟨rfl, hexp⟩ := h
        exact (hstay a t x v ha hst env henv hexp).symm
      · rfl

/-- Two actors over a base that binds `x` to `1`; the first is about to run `(set! x 2)`. -/
def leaking (x : Symbol) : Shared where
  base := [⟨0, false⟩]
  actors :=
    [⟨⟨1, true⟩, .run ⟨[⟨[.const 0, .setVar x, .const 1, .ret], 0, [⟨1, true⟩, ⟨0, false⟩],
        ⟨[.const 0, .setVar x, .const 1, .ret], [], [.ofNat 2, .unspecified]⟩, []⟩], []⟩, []⟩,
      ⟨⟨2, true⟩, .ret (.ok .unspecified), []⟩]
  world := { World.blank with
    layers := (⟨3, fun _ _ => none⟩ : Store Symbol Value).define 0 x (.ofNat 1) }
  overlay_not_base := by simp
  overlay_nodup := by simp
  base_allocated := by simp
  overlay_allocated := by simp

end Shared

end CrabScheme
