import CrabScheme.Lib.Actions

/-!
# Links and monitors

Actors that run on several threads watch each other. A monitor is recorded at its target only, a
link at both ends; `on_actor_termination` takes the actor out of the registry, takes a snapshot of
its monitors and later of its links, and notifies those watchers that are still registered. Each
visit to the registry and each region under one lock is one step, so the steps of calls and of
terminations interleave.

A call is made by the body of an actor. An actor has therefore at most one call in progress, and it
terminates only when it has none.

## Main results

* `linkedIn_comm` — a link in force is in force for both sides.
* `monitored_of_watching` — a monitor in force was recorded.
-/

namespace CrabScheme.Actor

/-- `ExitReason`. -/
inductive ExitReason
  | normal
  | killed
  | user (reason : String)
  | error (msg : String)
deriving DecidableEq

/-- The messages of supervision: `Message::Exit` and `Message::Down`. -/
inductive Message
  | exit (source : ℕ) (reason : ExitReason)
  | down (refId : ℕ) (pid : ℕ) (reason : ExitReason)
deriving DecidableEq

/-- **Where an actor stands.** From `removed` on it is not in the registry. -/
inductive Phase
  | unborn
  | alive
  | removed (reason : ExitReason)
  -- the monitors of the snapshot that are still to be notified
  | downs (reason : ExitReason) (pending : Finset (ℕ × ℕ))
  -- the links of the snapshot that are still to be notified
  | exits (reason : ExitReason) (pending : Finset ℕ)
  | gone (reason : ExitReason)
deriving DecidableEq

/-- Where the call of an actor stands. -/
inductive Call
  | idle
  -- `link` has found its target in the registry
  | linkFound (target : ℕ)
  -- `link` has inserted the target into its own links
  | linkHalf (target : ℕ)
  -- `unlink` has removed the target from its own links
  | unlinkHalf (target : ℕ)
  -- `monitor` has found its target in the registry
  | monitorFound (target : ℕ)
  -- `monitor` has its reference
  | monitorRef (target refId : ℕ)
deriving DecidableEq

/-- What has happened. -/
inductive Event
  -- `link` has returned `Ok`
  | linked (self target : ℕ)
  -- `unlink` has returned
  | unlinked (self target : ℕ)
  -- `monitor` has returned `Ok(ref_id)`
  | monitored (refId self target : ℕ)
  -- `demonitor` has returned
  | demonitored (target refId : ℕ)
  | removed (pid : ℕ) (reason : ExitReason)
  | finished (pid : ℕ)
  -- a message was pushed into a mailbox
  | delivered (watcher : ℕ) (msg : Message)
deriving DecidableEq

/-- **The system.** `log` has the latest event first. -/
structure System where
  phase : ℕ → Phase
  links : ℕ → Finset ℕ
  monitoredBy : ℕ → Finset (ℕ × ℕ)
  calls : ℕ → Call
  nextRef : ℕ
  log : List Event

/-- The steps of the system. -/
inductive Act
  | spawn (pid : ℕ)
  | link (self target : ℕ)
  | linkSelf (self : ℕ)
  | linkTarget (self : ℕ)
  | unlink (self target : ℕ)
  | unlinkTarget (self : ℕ)
  | monitor (self target : ℕ)
  | monitorRef (self : ℕ)
  | monitorInsert (self : ℕ)
  | demonitor (self target refId : ℕ)
  | terminate (pid : ℕ) (reason : ExitReason)
  | snapMonitors (pid : ℕ)
  | notifyDown (pid refId watcher : ℕ)
  | snapLinks (pid : ℕ)
  | notifyExit (pid linked : ℕ)
  | finish (pid : ℕ)

namespace System

/-- Nothing has been spawned. -/
def new : System := ⟨fun _ => .unborn, fun _ => ∅, fun _ => ∅, fun _ => .idle, 1, []⟩

variable (m : System)

@[simps links monitoredBy calls nextRef log]
def setPhase (p : ℕ) (f : Phase) : System := { m with phase := Function.update m.phase p f }

@[simps phase links monitoredBy nextRef log]
def setCall (a : ℕ) (c : Call) : System := { m with calls := Function.update m.calls a c }

@[simps phase monitoredBy calls nextRef log]
def setLinks (p : ℕ) (s : Finset ℕ) : System := { m with links := Function.update m.links p s }

@[simps phase links calls nextRef log]
def setMonitors (p : ℕ) (s : Finset (ℕ × ℕ)) : System :=
  { m with monitoredBy := Function.update m.monitoredBy p s }

@[simps phase links monitoredBy calls nextRef log]
def note (e : Event) : System := { m with log := e :: m.log }

/-! ## Calls -/

/-- `link` looks its target up. -/
def link (a b : ℕ) : System :=
  if m.phase a = .alive ∧ m.calls a = .idle ∧ a ≠ b ∧ m.phase b = .alive then
    m.setCall a (.linkFound b)
  else m

/-- `link` inserts its target into its own links. -/
def linkSelf (a : ℕ) : System :=
  match m.calls a with
  | .linkFound b => (m.setLinks a (insert b (m.links a))).setCall a (.linkHalf b)
  | _ => m

/-- `link` inserts itself into the links of its target and returns. -/
def linkTarget (a : ℕ) : System :=
  match m.calls a with
  | .linkHalf b => ((m.setLinks b (insert a (m.links b))).setCall a .idle).note (.linked a b)
  | _ => m

/-- `unlink` removes its target from its own links. -/
def unlink (a b : ℕ) : System :=
  if m.phase a = .alive ∧ m.calls a = .idle ∧ a ≠ b then
    (m.setLinks a ((m.links a).erase b)).setCall a (.unlinkHalf b)
  else m

/-- `unlink` removes itself from the links of its target, if that is registered, and returns. -/
def unlinkTarget (a : ℕ) : System :=
  match m.calls a with
  | .unlinkHalf b =>
    let links := if m.phase b = .alive then (m.links b).erase a else m.links b
    ((m.setLinks b links).setCall a .idle).note (.unlinked a b)
  | _ => m

/-- `monitor` looks its target up. -/
def monitor (a b : ℕ) : System :=
  if m.phase a = .alive ∧ m.calls a = .idle ∧ m.phase b = .alive then
    m.setCall a (.monitorFound b)
  else m

/-- `next_monitor_ref`. -/
def monitorRef (a : ℕ) : System :=
  match m.calls a with
  | .monitorFound b =>
    { m with
      calls := Function.update m.calls a (.monitorRef b m.nextRef)
      nextRef := (m.nextRef + 1) % 2 ^ 64 }
  | _ => m

/-- `monitor` inserts itself into the map of its target and returns. -/
def monitorInsert (a : ℕ) : System :=
  match m.calls a with
  | .monitorRef b r =>
    let map := insert (r, a) ((m.monitoredBy b).filter fun k => k.1 ≠ r)
    ((m.setMonitors b map).setCall a .idle).note (.monitored r a b)
  | _ => m

/-- `demonitor`. -/
def demonitor (a b r : ℕ) : System :=
  if m.phase a = .alive ∧ m.calls a = .idle then
    let map := if m.phase b = .alive then (m.monitoredBy b).filter fun k => k.1 ≠ r
      else m.monitoredBy b
    (m.setMonitors b map).note (.demonitored b r)
  else m

/-! ## Terminations -/

/-- `on_actor_termination` takes the actor out of the registry. -/
def terminate (p : ℕ) (reason : ExitReason) : System :=
  if m.phase p = .alive ∧ m.calls p = .idle then
    (m.setPhase p (.removed reason)).note (.removed p reason)
  else m

/-- The snapshot of the monitors. -/
def snapMonitors (p : ℕ) : System :=
  match m.phase p with
  | .removed reason => m.setPhase p (.downs reason (m.monitoredBy p))
  | _ => m

/-- The next monitor of the snapshot, in any order, is notified if it is registered. -/
def notifyDown (p r w : ℕ) : System :=
  match m.phase p with
  | .downs reason pending =>
    if (r, w) ∈ pending then
      let m' := m.setPhase p (.downs reason (pending.erase (r, w)))
      if m.phase w = .alive then m'.note (.delivered w (.down r p reason)) else m'
    else m
  | _ => m

/-- The snapshot of the links. -/
def snapLinks (p : ℕ) : System :=
  match m.phase p with
  | .downs reason pending =>
    if pending = ∅ then m.setPhase p (.exits reason (m.links p)) else m
  | _ => m

/-- The next link of the snapshot, in any order, is notified if it is registered. -/
def notifyExit (p q : ℕ) : System :=
  match m.phase p with
  | .exits reason pending =>
    if q ∈ pending then
      let m' := m.setPhase p (.exits reason (pending.erase q))
      if m.phase q = .alive then
        (m'.setLinks q ((m.links q).erase p)).note (.delivered q (.exit p reason))
      else m'
    else m
  | _ => m

/-- The end of `on_actor_termination`. -/
def finish (p : ℕ) : System :=
  match m.phase p with
  | .exits reason pending =>
    if pending = ∅ then (m.setPhase p (.gone reason)).note (.finished p) else m
  | _ => m

/-- **One step.** An action that is not possible does nothing. -/
def step : Act → System → System
  | .spawn p, m => if m.phase p = .unborn then m.setPhase p .alive else m
  | .link a b, m => m.link a b
  | .linkSelf a, m => m.linkSelf a
  | .linkTarget a, m => m.linkTarget a
  | .unlink a b, m => m.unlink a b
  | .unlinkTarget a, m => m.unlinkTarget a
  | .monitor a b, m => m.monitor a b
  | .monitorRef a, m => m.monitorRef a
  | .monitorInsert a, m => m.monitorInsert a
  | .demonitor a b r, m => m.demonitor a b r
  | .terminate p reason, m => m.terminate p reason
  | .snapMonitors p, m => m.snapMonitors p
  | .notifyDown p r w, m => m.notifyDown p r w
  | .snapLinks p, m => m.snapLinks p
  | .notifyExit p q, m => m.notifyExit p q
  | .finish p, m => m.finish p

end System

/-! ## Which watches are in force -/

/-- The link between `p` and `q` is in force: the last call about it that returned was a `link`, of
either side. -/
def linkedIn (p q : ℕ) : List Event → Bool
  | [] => false
  | .linked a b :: past => decide (a = p ∧ b = q ∨ a = q ∧ b = p) || linkedIn p q past
  | .unlinked a b :: past => !decide (a = p ∧ b = q ∨ a = q ∧ b = p) && linkedIn p q past
  | _ :: past => linkedIn p q past

/-- The monitor `r` of `w` on `p` is in force: the last call about it that returned was the
`monitor`. -/
def watching (p r w : ℕ) : List Event → Bool
  | [] => false
  | .monitored r' w' p' :: past => decide (r' = r ∧ w' = w ∧ p' = p) || watching p r w past
  | .demonitored p' r' :: past => !decide (p' = p ∧ r' = r) && watching p r w past
  | _ :: past => watching p r w past

/-- **A message is due:** its source has terminated for the reason it gives, the watch is in force
and the message was not delivered before. -/
def Due (past : List Event) : Event → Prop
  | .delivered w (.down r p reason) => .removed p reason ∈ past ∧ watching p r w past = true ∧
    ∀ reason', .delivered w (.down r p reason') ∉ past
  | .delivered q (.exit p reason) => .removed p reason ∈ past ∧ linkedIn p q past = true ∧
    ∀ reason', .delivered q (.exit p reason') ∉ past
  | _ => True

namespace System

/-- **Links and monitors are exact.** Every message that was delivered was due; when an actor has
terminated, every watcher that is alive has the message of each watch in force; and the links of
live actors with no call in progress are symmetric. -/
structure Exact (m : System) : Prop where
  due : ∀ {e past}, e :: past <:+ m.log → Due past e
  downs : ∀ {p r w}, .finished p ∈ m.log → m.phase w = .alive → watching p r w m.log = true →
    ∃ reason, .delivered w (.down r p reason) ∈ m.log
  exits : ∀ {p q}, .finished p ∈ m.log → m.phase q = .alive → linkedIn p q m.log = true →
    ∃ reason, .delivered q (.exit p reason) ∈ m.log
  symmetric : ∀ {a b}, m.phase a = .alive → m.phase b = .alive → m.calls a = .idle →
    m.calls b = .idle → (b ∈ m.links a ↔ a ∈ m.links b)

end System

/-- The actor has not begun to terminate. -/
def Phase.present : Phase → Bool
  | .unborn => true
  | .alive => true
  | _ => false

/-- The snapshot of the monitors has not been taken. -/
def Phase.watchable : Phase → Bool
  | .unborn => true
  | .alive => true
  | .removed _ => true
  | _ => false

/-- The snapshot of the links has not been taken. -/
def Phase.linkable : Phase → Bool
  | .unborn => true
  | .alive => true
  | .removed _ => true
  | .downs _ _ => true
  | _ => false

/-- The actor has terminated. -/
def Phase.settled : Phase → Bool
  | .gone _ => true
  | _ => false

/-- The reason of an actor that has begun to terminate. -/
def Phase.reason? : Phase → Option ExitReason
  | .removed reason => some reason
  | .downs reason _ => some reason
  | .exits reason _ => some reason
  | .gone reason => some reason
  | _ => none

/-- The reason of an actor that has taken the snapshot of its monitors. -/
def Phase.downed : Phase → Option ExitReason
  | .downs reason _ => some reason
  | .exits reason _ => some reason
  | .gone reason => some reason
  | _ => none

/-- The reason of an actor that has taken the snapshot of its links. -/
def Phase.exited : Phase → Option ExitReason
  | .exits reason _ => some reason
  | .gone reason => some reason
  | _ => none

attribute [grind =] Phase.present Phase.watchable Phase.linkable Phase.settled Phase.downed Phase.exited

@[grind →] lemma Phase.not_linkable {f : Phase} {reason : ExitReason}
    (h : f.exited = some reason) : f.linkable = false := by
  cases f <;> grind -linarith

@[grind →] lemma Phase.not_watchable {f : Phase} {reason : ExitReason}
    (h : f.downed = some reason) : f.watchable = false := by
  cases f <;> grind -linarith

@[grind →] lemma Phase.watchable_of_present {f : Phase} (h : f.present = true) :
    f.watchable = true := by
  cases f <;> grind -linarith

@[grind →] lemma Phase.linkable_of_present {f : Phase} (h : f.present = true) :
    f.linkable = true := by
  cases f <;> grind -linarith

@[grind →] lemma Phase.not_linkable_of_settled {f : Phase} (h : f.settled = true) :
    f.linkable = false := by
  cases f <;> grind -linarith

lemma Phase.settled_iff {f : Phase} : f.settled = true ↔ ∃ reason, f = .gone reason := by
  cases f <;> simp [Phase.settled]

namespace System

/-- **A clean step.** A `link` and an `unlink` of the other side do not overlap; a watch is recorded
before the snapshot of its target; it is not cancelled while its target is still notifying; and the
counter of references does not wrap around. -/
def Clean (m : System) : Act → Prop
  | .linkSelf a =>
    match m.calls a with
    | .linkFound b => m.calls b ≠ .unlinkHalf a
    | _ => True
  | .linkTarget a =>
    match m.calls a with
    | .linkHalf b => (m.phase b).linkable = true
    | _ => True
  | .unlink a b => m.calls b ≠ .linkHalf a
  | .unlinkTarget a =>
    match m.calls a with
    | .unlinkHalf b => (m.phase b).present = true ∨ (m.phase b).settled = true
    | _ => True
  | .monitorRef _ => m.nextRef + 1 < 2 ^ 64
  | .monitorInsert a =>
    match m.calls a with
    | .monitorRef b _ => (m.phase b).watchable = true
    | _ => True
  | .demonitor _ b _ => (m.phase b).present = true ∨ (m.phase b).linkable = false
  | _ => True

instance (m : System) (act : Act) : Decidable (m.Clean act) := by
  cases act <;> unfold Clean <;> dsimp only <;> (try split) <;> infer_instance

end System

/-! ## Events and watches -/

section Log

variable {p q r w : ℕ} {past : List Event} {e : Event}

lemma linkedIn_comm (p q : ℕ) (past : List Event) : linkedIn p q past = linkedIn q p past := by
  induction past with
  | nil => rfl
  | cons e past ih => cases e <;> simp [linkedIn, ih, or_comm]

lemma monitored_of_watching (h : watching p r w past = true) : .monitored r w p ∈ past := by
  induction past with
  | nil => cases h
  | cons e past ih => cases e <;> grind -linarith [watching]

end Log

namespace System

variable {m : System} {a b p q : ℕ} {f : Phase} {c : Call}

@[simp, grind =] lemma setPhase_phase :
    (m.setPhase p f).phase q = if q = p then f else m.phase q := Function.update_apply _ _ _ _

@[simp, grind =] lemma setCall_calls :
    (m.setCall a c).calls b = if b = a then c else m.calls b := Function.update_apply _ _ _ _

@[simp, grind =] lemma setLinks_links (s : Finset ℕ) :
    (m.setLinks p s).links q = if q = p then s else m.links q := Function.update_apply _ _ _ _

@[simp, grind =] lemma setMonitors_monitoredBy (s : Finset (ℕ × ℕ)) :
    (m.setMonitors p s).monitoredBy q = if q = p then s else m.monitoredBy q :=
  Function.update_apply _ _ _ _

attribute [grind =] setPhase_links setPhase_monitoredBy setPhase_calls setPhase_nextRef setPhase_log
  setCall_phase setCall_links setCall_monitoredBy setCall_nextRef setCall_log setLinks_phase
  setLinks_monitoredBy setLinks_calls setLinks_nextRef setLinks_log setMonitors_phase
  setMonitors_links setMonitors_calls setMonitors_nextRef setMonitors_log note_phase note_links
  note_monitoredBy note_calls note_nextRef note_log

end System

end CrabScheme.Actor
