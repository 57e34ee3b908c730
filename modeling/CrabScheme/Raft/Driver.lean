import CrabScheme.Raft.Local

/-!
# The driver of a replica

`RaftDriver` of `cs-consensus` wires a replica to its peers and to the actors of the runtime. After
each call it drains what the replica has applied: the registered observer receives a `Committed`
for every index, and the actor that proposed the command at an index receives an `Applied`. The
proposals that await their reply are kept by index.

## Design

The replicas of the drivers are the nodes of a cluster, and every call of a driver is a sequence of
actions of that cluster, so what is known of the runs of clusters holds here. The network delivers a
frame late, again or never, as it does there; the peers a driver was not given are peers whose
frames are lost.
-/

namespace CrabScheme.Raft

open Relation (ReflTransGen)

variable {σ : Type}

abbrev ActorRef := ℕ

/-! ## Drivers -/

/-- The notification of an observer. -/
structure Committed where
  index : ℕ
  command : Bytes
deriving DecidableEq

/-- The reply to the proposer of a command, `Applied` of the driver. `index` is what it is for and
`entry` what the replica has applied there; the actor sees neither. -/
structure Reply where
  recipient : ActorRef
  reqId : ℕ
  result : Bytes
  index : ℕ
  entry : Option Entry
deriving DecidableEq

/-- A proposal with a reply, and the entry it has created. -/
structure Proposal where
  recipient : ActorRef
  reqId : ℕ
  entry : Entry
deriving DecidableEq

/-- **A driver**, next to its replica. `committed` and `replies` list what was sent to actors, and
`proposals` what was proposed; no function reads them. -/
structure RaftDriver where
  pending : ℕ → Option (ActorRef × ℕ)
  observer : Option ActorRef
  notifiedThrough : ℕ
  committed : List (ActorRef × Committed)
  replies : List Reply
  proposals : List Proposal

/-- The command of an entry, empty for entries that have none. -/
def Entry.command (e : Entry) : Bytes :=
  match e.payload with
  | .command cmd => cmd
  | _ => []

/-- The last entry with an index among those a replica has applied. -/
def appliedAt (history : List Entry) (idx : ℕ) : Option Entry :=
  history.reverse.find? fun e => decide (e.index = idx)

namespace RaftDriver

/-- `RaftDriver::new`, of a replica that has applied up to an index. -/
def new (lastApplied : ℕ) : RaftDriver := ⟨fun _ => none, none, lastApplied, [], [], []⟩

variable (d : RaftDriver)

/-- `set_observer`. -/
def setObserver (observer : ActorRef) : RaftDriver := { d with observer := some observer }

/-- A proposal awaits its index. -/
def track (p : Proposal) : RaftDriver :=
  { d with
    pending := fun i => if i = p.entry.index then some (p.recipient, p.reqId) else d.pending i
    proposals := d.proposals ++ [p] }

/-- A proposal is no longer awaited. -/
def forget (idx : ℕ) : RaftDriver :=
  { d with pending := fun i => if i = idx then none else d.pending i }

/-- The observer is notified, if there is one. -/
def observe (c : Committed) : RaftDriver :=
  match d.observer with
  | some obs => { d with committed := d.committed ++ [(obs, c)] }
  | none => d

/-- The proposer is notified, if there is one. -/
def answer (history : List Entry) (a : Applied) : RaftDriver :=
  match d.pending a.index with
  | some (recipient, reqId) =>
    let r : Reply := ⟨recipient, reqId, a.result, a.index, appliedAt history a.index⟩
    { d.forget a.index with replies := d.replies ++ [r] }
  | none => d

/-- The body of the loop of `notify_applied`. -/
def notifyOne (history : List Entry) (a : Applied) : RaftDriver :=
  if a.index ≤ d.notifiedThrough then d.forget a.index
  else ({ d with notifiedThrough := a.index }.observe ⟨a.index, a.command⟩).answer history a

/-- `notify_applied`: the loop over what was applied. -/
def notifyAll (history : List Entry) (applied : List Applied) : RaftDriver :=
  applied.foldl (fun d a => d.notifyOne history a) d

end RaftDriver

/-! ## A cluster of drivers -/

/-- **A cluster with its drivers.** -/
structure Drivers (σ : Type) where
  cluster : Cluster σ
  drivers : ReplicaId → RaftDriver

/-- What can happen to a cluster of drivers. -/
inductive DriverAction
  | tick (i : ReplicaId)
  /-- The messages with the given numbers are received, those that are for the replica. -/
  | poll (i : ReplicaId) (ks : List ℕ)
  | propose (i : ReplicaId) (command : Bytes)
  | proposeWithReply (i : ReplicaId) (command : Bytes) (reply : ActorRef) (reqId : ℕ)
  | read (i : ReplicaId) (reqId : ℕ) (query : Bytes)
  | setObserver (i : ReplicaId) (observer : ActorRef)
  /-- Calls of the replica itself, through `node_mut`. -/
  | proposeConf (i : ReplicaId) (newVoters : List ReplicaId)
  | compact (i : ReplicaId)
  | takeReadyReads (i : ReplicaId)
  /-- The replica crashes, and a new driver is given the replica that resumes. -/
  | restart (i : ReplicaId)
deriving DecidableEq

variable {a : Action} {i : ReplicaId} {r : Node σ × List Out} {es : List Entry} {e : Entry}

namespace Setup

variable (S : Setup σ)

/-- The drivers at the start. -/
def driversInit : Drivers σ := ⟨S.init, fun i => .new (S.init.nodes i).lastApplied⟩

/-- A message is received, if it is for replica `i`. -/
def recv (i k : ℕ) (c : Cluster σ) : Cluster σ :=
  match c.sent[k]? with
  | some p => if p.receiver = i then S.step (.deliver k) c else c
  | none => c

/-- `notify_applied`. -/
def notifyApplied (i : ReplicaId) (D : Drivers σ) : Drivers σ where
  cluster := S.step (.takeApplied i) D.cluster
  drivers := Function.update D.drivers i
    ((D.drivers i).notifyAll (D.cluster.nodes i).history (D.cluster.nodes i).takeApplied.1)

/-- The driver after the replica was given a command with a reply. -/
def tracked (n : Node σ) (d : RaftDriver) (command : Bytes) (reply : ActorRef) (reqId : ℕ) :
    RaftDriver :=
  match (n.propose S.machine command).1 with
  | some idx => d.track ⟨reply, reqId, ⟨n.currentTerm, idx, .command command⟩⟩
  | none => d

/-- **One call of a driver**, or a crash. -/
def driverStep (a : DriverAction) (D : Drivers σ) : Drivers σ :=
  match a with
  | .tick i => S.notifyApplied i { D with cluster := S.step (.tick i) D.cluster }
  | .poll i ks => S.notifyApplied i { D with cluster := Actions.run (S.recv i) ks D.cluster }
  | .propose i command =>
    S.notifyApplied i { D with cluster := S.step (.propose i command) D.cluster }
  | .proposeWithReply i command reply reqId =>
    S.notifyApplied i
      { cluster := S.step (.propose i command) D.cluster
        drivers := Function.update D.drivers i
          (S.tracked (D.cluster.nodes i) (D.drivers i) command reply reqId) }
  | .read i reqId query =>
    S.notifyApplied i { D with cluster := S.step (.read i reqId query) D.cluster }
  | .setObserver i observer =>
    { D with drivers := Function.update D.drivers i ((D.drivers i).setObserver observer) }
  | .proposeConf i newVoters => { D with cluster := S.step (.proposeConf i newVoters) D.cluster }
  | .compact i => { D with cluster := S.step (.compact i) D.cluster }
  | .takeReadyReads i => { D with cluster := S.step (.takeReadyReads i) D.cluster }
  | .restart i =>
    let c := S.step (.restart i) D.cluster
    ⟨c, Function.update D.drivers i (.new (c.nodes i).lastApplied)⟩

/-- **The drivers after a list of calls.** -/
def driverRun (as : List DriverAction) : Drivers σ := Actions.run S.driverStep as S.driversInit

/-! ## The cluster of a run -/

/-- A cluster that some actions lead to. -/
def Reached (c : Cluster σ) : Prop := ∃ as, S.run as = c

variable {S} {c : Cluster σ}

lemma Reached.step (h : S.Reached c) (a : Action) : S.Reached (S.step a c) := by
  obtain ⟨as, rfl⟩ := h
  exact ⟨as ++ [a], Actions.run_concat _ _ _⟩

lemma Reached.recv (h : S.Reached c) (i k : ℕ) : S.Reached (S.recv i k c) := by
  unfold Setup.recv
  split
  · split
    · exact h.step _
    · exact h
  · exact h

lemma Reached.recvs (h : S.Reached c) (i : ℕ) (ks : List ℕ) :
    S.Reached (Actions.run (S.recv i) ks c) := by
  induction ks generalizing c with
  | nil => exact h
  | cons k ks ih => exact ih (h.recv i k)

lemma Reached.kept (h : S.Reached c) (i : ReplicaId) : (c.nodes i).local.Kept := by
  obtain ⟨as, rfl⟩ := h
  exact ((S.kept_run as).1 i).local

lemma Reached.numbered (h : S.Reached c) {p : Packet} (hp : p ∈ c.sent) : p.msg.Numbered := by
  obtain ⟨as, rfl⟩ := h
  exact (S.kept_run as).2 p hp

lemma nodes_step (h : S.drive c a = some (i, r)) :
    (S.step a c).nodes i = r.1 ∧ ∀ j, j ≠ i → (S.step a c).nodes j = c.nodes j := by
  unfold Setup.step
  rw [h]
  exact ⟨Function.update_self _ _ _, fun j hj => Function.update_of_ne hj _ _⟩

lemma nodes_recv_of_ne {j : ReplicaId} (hj : j ≠ i) (k : ℕ) :
    (S.recv i k c).nodes j = c.nodes j := by
  unfold Setup.recv
  cases hk : c.sent[k]? with
  | none => rfl
  | some p =>
    dsimp only
    split_ifs with hp
    · have hd : S.drive c (.deliver k) =
          some (p.receiver, (c.nodes p.receiver).onMessage S.machine p.sender p.msg) := by
        simp [Setup.drive, hk]
      exact (nodes_step hd).2 j (hp ▸ hj)
    · rfl

end Setup

/-! ## What a driver and its replica keep -/

namespace RaftDriver

/-- Nothing in the outbox is new to the driver. -/
def Quiet (d : RaftDriver) (l : Local σ) : Prop :=
  ∀ a ∈ l.appliedOutbox, a.index ≤ d.notifiedThrough

end RaftDriver

/-- **An invariant of a driver and its replica**, with what one step does to it. `P` is what is
assumed of the messages a replica takes something from. -/
structure DriverInvariant (M : StateMachine σ)
    (P : RaftDriver → Local σ → Message → Prop) where
  holds : RaftDriver → Local σ → Prop
  start : ∀ {l : Local σ}, l.Kept → (RaftDriver.new l.lastApplied).Quiet l →
    holds (.new l.lastApplied) l
  works : ∀ {d : RaftDriver} {l l' : Local σ}, l.Kept → holds d l → Works M l l' → holds d l'
  takes : ∀ {d : RaftDriver} {l l' : Local σ} {msg : Message}, l.Kept → msg.Numbered →
    holds d l → P d l msg → Takes M l msg l' → holds d l'
  notify : ∀ {d : RaftDriver} {l : Local σ}, l.Kept → holds d l →
    holds (d.notifyAll l.history l.appliedOutbox) l.drain
  observe : ∀ {d : RaftDriver} {l : Local σ} (obs : ActorRef), holds d l → d.Quiet l →
    holds (d.setObserver obs) l
  propose : ∀ {d : RaftDriver} {l : Local σ} {p : Proposal} {cmd : Bytes}, l.Kept →
    holds d l → d.Quiet l → p.entry = ⟨p.entry.term, l.store.lastIndex + 1, .command cmd⟩ →
    holds (d.track p) (l.append p.entry.term (.command cmd))

namespace DriverInvariant

variable {M : StateMachine σ} {P : RaftDriver → Local σ → Message → Prop}
variable (I : DriverInvariant M P) {d : RaftDriver} {l l' : Local σ}

lemma works_all (hk : l.Kept) (h : I.holds d l) (hw : ReflTransGen (Works M) l l') :
    l'.Kept ∧ I.holds d l' := by
  induction hw with
  | refl => exact ⟨hk, h⟩
  | tail _ hstep ih => exact ⟨ih.1.works hstep, I.works ih.1 ih.2 hstep⟩

end DriverInvariant

/-! ## What applying adds -/

lemma appliedAt_append (h es : List Entry) (idx : ℕ) :
    appliedAt (h ++ es) idx = (appliedAt es idx).or (appliedAt h idx) := by
  unfold appliedAt
  rw [List.reverse_append, List.find?_append]

lemma appliedAt_of_not_mem {h : List Entry} {idx : ℕ} (hes : ∀ e ∈ es, e.index ≠ idx) :
    appliedAt (h ++ es) idx = appliedAt h idx := by
  have hnone : appliedAt es idx = none := by
    unfold appliedAt
    rw [List.find?_eq_none]
    exact fun e he => by simpa using hes e (List.mem_reverse.mp he)
  rw [appliedAt_append, hnone, Option.none_or]

lemma appliedAt_of_mem {h : List Entry} (he : e ∈ es) (hone : ∀ x ∈ es, x.index = e.index → x = e)
    : appliedAt (h ++ es) e.index = some e := by
  have hsome : appliedAt es e.index = some e := by
    cases hf : appliedAt es e.index with
    | none =>
      have := List.find?_eq_none.mp hf e (List.mem_reverse.mpr he)
      simp at this
    | some x =>
      have hx : x ∈ es := List.mem_reverse.mp (List.mem_of_find?_eq_some hf)
      have hidx := List.find?_some hf
      rw [hone x hx (of_decide_eq_true hidx)]
  rw [appliedAt_append, hsome, Option.some_or]

namespace StateMachine

variable {M : StateMachine σ}

lemma map_index_outputs (s : σ) (es : List Entry) :
    (M.outputs s es).map Applied.index = es.map Entry.index := by
  induction es generalizing s with
  | nil => rfl
  | cons e es ih =>
    rw [outputs, List.map_cons, ih]
    unfold output
    split <;> rfl

lemma exists_of_mem_outputs {s : σ} {a : Applied} (h : a ∈ M.outputs s es) :
    ∃ e ∈ es, a.index = e.index ∧ a.command = e.command := by
  induction es generalizing s with
  | nil => cases h
  | cons e es ih =>
    rcases List.mem_cons.mp h with rfl | h
    · refine ⟨e, List.mem_cons_self, ?_⟩
      cases hp : e.payload <;> simp [output, Entry.command, hp]
    · obtain ⟨x, hx, hsame⟩ := ih h
      exact ⟨x, List.mem_cons_of_mem e hx, hsame⟩

end StateMachine

namespace Local

variable {M : StateMachine σ} {l : Local σ}

lemma Kept.map_index_due (h : l.Kept) {c : ℕ} (hc : c ≤ l.store.lastIndex) :
    (l.due (c - l.lastApplied)).map Entry.index =
      List.range' (l.lastApplied + 1) (c - l.lastApplied) := by
  have hlen := h.length_due hc
  refine List.ext_getElem? fun q => ?_
  rw [List.getElem?_map]
  rcases Nat.lt_or_ge q (c - l.lastApplied) with hq | hq
  · obtain ⟨e, he⟩ : ∃ e, (l.due (c - l.lastApplied))[q]? = some e :=
      ⟨_, List.getElem?_eq_getElem (by omega)⟩
    have hentry := he
    unfold Local.due at hentry
    rw [List.getElem?_take_of_lt hq, List.getElem?_drop] at hentry
    have hindex := h.numbered _ e hentry
    have hbase := h.base_le
    rw [he, List.getElem?_range' hq, Option.map_some]
    congr 1
    omega
  · rw [List.getElem?_eq_none (by omega), List.getElem?_eq_none (by rw [List.length_range']; omega)]
    rfl

lemma Kept.bounds_due (h : l.Kept) {c : ℕ} (hc : c ≤ l.store.lastIndex)
    (he : e ∈ l.due (c - l.lastApplied))
    : l.lastApplied < e.index ∧ e.index ≤ max l.lastApplied c := by
  have hmem := List.mem_map_of_mem (f := Entry.index) he
  rw [h.map_index_due hc] at hmem
  have := List.mem_range'_1.mp hmem
  omega

lemma Kept.appliedAt_due (h : l.Kept) {c : ℕ} (hc : c ≤ l.store.lastIndex)
    (he : e ∈ l.due (c - l.lastApplied)) :
    appliedAt (l.history ++ l.due (c - l.lastApplied)) e.index = some e := by
  have hnodup : ((l.due (c - l.lastApplied)).map Entry.index).Nodup := by
    rw [h.map_index_due hc]
    exact List.nodup_range'
  exact appliedAt_of_mem he fun x hx hxe => List.inj_on_of_nodup_map hnodup hx he hxe

lemma Kept.appliedAt_old (h : l.Kept) {c : ℕ} (hc : c ≤ l.store.lastIndex) {idx : ℕ}
    (hidx : idx ≤ l.lastApplied) :
    appliedAt (l.history ++ l.due (c - l.lastApplied)) idx = appliedAt l.history idx :=
  appliedAt_of_not_mem fun e he => by
    have := (h.bounds_due hc he).1
    omega

lemma compact_applies (l : Local σ) : (l.compact M).lastApplied = l.lastApplied ∧
    (l.compact M).appliedOutbox = l.appliedOutbox ∧ (l.compact M).history = l.history := by
  unfold Local.compact
  split_ifs
  · exact ⟨rfl, rfl, rfl⟩
  · cases l.store.termAt l.lastApplied <;> exact ⟨rfl, rfl, rfl⟩

lemma Kept.advance_applies (h : l.Kept) {c : ℕ} (hc : c ≤ l.store.lastIndex) :
    (l.advance M c).lastApplied = max l.lastApplied c ∧
      (l.advance M c).appliedOutbox =
        l.appliedOutbox ++ M.outputs l.sm (l.due (c - l.lastApplied)) ∧
      (l.advance M c).history = l.history ++ l.due (c - l.lastApplied) := by
  obtain ⟨hla, hout, hhist⟩ := compact_applies (l.applyTo M c)
  have happlied := h.lastApplied_applyTo (M := M) hc
  unfold Local.advance Local.maybeCompact
  split_ifs
  · exact ⟨hla.trans happlied, hout, hhist⟩
  · exact ⟨happlied, rfl, rfl⟩

end Local

/-! ## Outboxes -/

namespace Node

variable {M : StateMachine σ} (n : Node σ)

/-- The outbox has nothing beyond what is applied. -/
def Bounded : Prop := ∀ a ∈ n.appliedOutbox, a.index ≤ n.lastApplied

variable {n}

lemma Bounded.applyNext (h : n.Bounded) : (n.applyNext M).Bounded := by
  have hold : ∀ a ∈ n.appliedOutbox, a.index ≤ n.lastApplied + 1 := fun a ha =>
    (h a ha).trans (Nat.le_succ _)
  have hnew : ∀ x : Applied, x.index = n.lastApplied + 1 → ∀ a ∈ n.appliedOutbox ++ [x],
      a.index ≤ n.lastApplied + 1 := by
    intro x hx a ha
    rcases List.mem_append.mp ha with ha | ha
    · exact hold a ha
    · rw [List.mem_singleton.mp ha, hx]
  unfold Node.applyNext
  dsimp only
  split
  · exact hold
  · split
    · exact hnew _ rfl
    · exact hnew _ rfl

lemma Bounded.applyLoop (k : ℕ) {n : Node σ} (h : n.Bounded) : (applyLoop M k n).Bounded := by
  induction k generalizing n with
  | zero => exact h
  | succ k ih => exact ih h.applyNext

lemma outbox_compact : (n.compact M).appliedOutbox = n.appliedOutbox ∧
    (n.compact M).lastApplied = n.lastApplied := by
  unfold compact
  split
  · exact ⟨rfl, rfl⟩
  · split <;> exact ⟨rfl, rfl⟩

lemma Bounded.applyCommitted (h : n.Bounded) : (n.applyCommitted M).Bounded := by
  have hloop : ((Node.applyLoop M (n.commitIndex - n.lastApplied) n).serveReads M).Bounded := by
    have hl := h.applyLoop (M := M) (n.commitIndex - n.lastApplied)
    unfold serveReads
    split <;> exact hl
  unfold Node.applyCommitted maybeCompact
  dsimp only
  split
  · unfold Bounded
    rw [outbox_compact.1, outbox_compact.2]
    exact hloop
  · exact hloop

lemma bounded_restoreFrom (i : ReplicaId) (voters : List ReplicaId) (cfg : Config) (sm : σ)
    (s : MemLogStore) : (restoreFrom M i voters cfg sm s).Bounded := by
  unfold restoreFrom
  refine Bounded.applyCommitted ?_
  cases s.loadSnapshot <;> exact nofun

lemma outbox_proposeConf (vs : List ReplicaId) :
    (n.proposeConf vs).2.1.appliedOutbox = n.appliedOutbox := by
  unfold proposeConf
  split
  · cases n.config with
    | simple old =>
      have h := congrArg Local.appliedOutbox
        (n.local_appendLocal (.config (.joint old (ConfState.sorted vs))))
      exact h
    | joint => rfl
  · rfl

end Node

/-! ## Every run -/

/-- The messages a replica takes something from are as assumed. -/
def RaftDriver.Hears (P : RaftDriver → Local σ → Message → Prop) (d : RaftDriver) (i : ReplicaId)
    (c : Cluster σ) (k : ℕ) : Prop :=
  match c.sent[k]? with
  | some p => p.receiver = i → (c.nodes i).currentTerm ≤ p.msg.term → P d (c.nodes i).local p.msg
  | none => True

instance (P : RaftDriver → Local σ → Message → Prop) [∀ d l m, Decidable (P d l m)]
    (d : RaftDriver) (i : ReplicaId) (c : Cluster σ) (k : ℕ) : Decidable (d.Hears P i c k) := by
  unfold RaftDriver.Hears
  split <;> infer_instance

/-- **A call in which every message is as assumed** when it is received. -/
def Setup.Meets (S : Setup σ) (P : RaftDriver → Local σ → Message → Prop) (D : Drivers σ) :
    DriverAction → Prop
  | .poll i ks => Actions.Allowed (S.recv i) ((D.drivers i).Hears P i) D.cluster ks
  | _ => True

instance (S : Setup σ) (P : RaftDriver → Local σ → Message → Prop) [∀ d l m, Decidable (P d l m)]
    (D : Drivers σ) (a : DriverAction) : Decidable (S.Meets P D a) := by
  unfold Setup.Meets
  split <;> infer_instance

namespace DriverInvariant

variable {S : Setup σ} {P : RaftDriver → Local σ → Message → Prop}
variable (I : DriverInvariant S.machine P)

/-- The invariant holds of every driver, and no outbox has anything new. -/
structure Holds (D : Drivers σ) : Prop where
  reached : S.Reached D.cluster
  driver : ∀ i, I.holds (D.drivers i) (D.cluster.nodes i).local
  quiet : ∀ i, (D.drivers i).Quiet (D.cluster.nodes i).local

variable {I}
variable {D : Drivers σ}

lemma Holds.notify (h : I.Holds D) {c : Cluster σ} {d : RaftDriver} (hc : S.Reached c)
    (hother : ∀ j, j ≠ i → c.nodes j = D.cluster.nodes j) (hi : I.holds d (c.nodes i).local) :
    I.Holds (S.notifyApplied i ⟨c, Function.update D.drivers i d⟩) := by
  have hd : S.drive c (.takeApplied i) = some (i, (c.nodes i).takeApplied.2, []) := rfl
  obtain ⟨hself, hrest⟩ := Setup.nodes_step hd
  refine ⟨hc.step (.takeApplied i), fun j => ?_, fun j => ?_⟩ <;> by_cases hj : j = i
  · subst hj
    simp only [Setup.notifyApplied, Function.update_self]
    rw [hself]
    exact I.notify (hc.kept j) hi
  · simp only [Setup.notifyApplied, Function.update_of_ne hj]
    rw [hrest j hj, hother j hj]
    exact h.driver j
  · subst hj
    simp only [Setup.notifyApplied]
    rw [hself]
    exact nofun
  · simp only [Setup.notifyApplied, Function.update_of_ne hj]
    rw [hrest j hj, hother j hj]
    exact h.quiet j

lemma recvs {d : RaftDriver} {ks : List ℕ} {c : Cluster σ} (hc : S.Reached c)
    (h : I.holds d (c.nodes i).local) (hks : Actions.Allowed (S.recv i) (d.Hears P i) c ks) :
    I.holds d ((Actions.run (S.recv i) ks c).nodes i).local ∧
      ∀ j, j ≠ i → (Actions.run (S.recv i) ks c).nodes j = c.nodes j := by
  induction ks generalizing c with
  | nil => exact ⟨h, fun _ _ => rfl⟩
  | cons k ks ih =>
    obtain ⟨hk, hks⟩ := hks
    have hone : I.holds d ((S.recv i k c).nodes i).local := by
      unfold Setup.recv
      cases hp : c.sent[k]? with
      | none => exact h
      | some p =>
        dsimp only
        split_ifs with hrec
        · subst hrec
          have hd : S.drive c (.deliver k) =
              some (p.receiver, (c.nodes p.receiver).onMessage S.machine p.sender p.msg) := by
            simp [Setup.drive, hp]
          rw [(Setup.nodes_step hd).1]
          have hnum := hc.numbered (List.mem_of_getElem? hp)
          obtain ⟨l, hl, hw⟩ := Node.takes_onMessage _ (hc.kept p.receiver)
            p.sender hnum
          unfold RaftDriver.Hears at hk
          rw [hp] at hk
          rcases hl with rfl | ⟨hterm, ht⟩
          · exact (I.works_all (hc.kept _) h hw).2
          · exact (I.works_all ((hc.kept _).takes hnum ht)
              (I.takes (hc.kept _) hnum h (hk rfl hterm) ht) hw).2
        · exact h
    obtain ⟨hrest, hother⟩ := ih (hc.recv i k) hone hks
    exact ⟨hrest, fun j hj => (hother j hj).trans (Setup.nodes_recv_of_ne hj k)⟩

lemma Holds.drive (h : I.Holds D) (hd : S.drive D.cluster a = some (i, r)) {d : RaftDriver}
    (hi : I.holds d r.1.local) :
    I.Holds (S.notifyApplied i ⟨S.step a D.cluster, Function.update D.drivers i d⟩) := by
  obtain ⟨hself, hrest⟩ := Setup.nodes_step hd
  exact h.notify (h.reached.step a) hrest (hself ▸ hi)

lemma Holds.call (h : I.Holds D) (hd : S.drive D.cluster a = some (i, r))
    (hi : I.holds (D.drivers i) r.1.local)
    (hout : r.1.appliedOutbox = (D.cluster.nodes i).appliedOutbox) :
    I.Holds { D with cluster := S.step a D.cluster } := by
  obtain ⟨hself, hrest⟩ := Setup.nodes_step hd
  refine ⟨h.reached.step a, fun j => ?_, fun j => ?_⟩ <;> by_cases hj : j = i
  · subst hj
    rw [hself]
    exact hi
  · rw [hrest j hj]
    exact h.driver j
  · subst hj
    rw [hself]
    intro x hx
    have hx : x ∈ r.1.appliedOutbox := hx
    rw [hout] at hx
    exact h.quiet j x hx
  · rw [hrest j hj]
    exact h.quiet j

/-- **One call of a driver keeps the invariant.** -/
lemma Holds.step (h : I.Holds D) {a : DriverAction} (ha : S.Meets P D a) :
    I.Holds (S.driverStep a D) := by
  have hk := h.reached.kept
  cases a with
  | tick i =>
    have := h.drive (a := .tick i) rfl (I.works_all (hk i) (h.driver i) (Node.works_take _ (hk i) .tick nofun)).2
    rwa [Function.update_eq_self] at this
  | poll i ks =>
    obtain ⟨hi, hother⟩ := recvs h.reached (h.driver i) ha
    have := h.notify (h.reached.recvs i ks) hother hi
    rwa [Function.update_eq_self] at this
  | propose i cmd =>
    have hi : I.holds (D.drivers i) ((D.cluster.nodes i).propose S.machine cmd).2.1.local := by
      by_cases hrole : (D.cluster.nodes i).role = .leader
      · have happ := Works.append (M := S.machine) (l := (D.cluster.nodes i).local)
          (D.cluster.nodes i).currentTerm (.command cmd)
        exact (I.works_all (hk i) (h.driver i)
          (.head happ (Node.works_propose _ (hk i) cmd hrole))).2
      · unfold Node.propose
        rw [if_neg hrole]
        exact h.driver i
    have := h.drive (a := .propose i cmd) rfl hi
    rwa [Function.update_eq_self] at this
  | proposeWithReply i cmd reply reqId =>
    refine h.drive rfl ?_
    unfold Setup.tracked
    by_cases hrole : (D.cluster.nodes i).role = .leader
    · have hidx : ((D.cluster.nodes i).propose S.machine cmd).1 =
          some ((D.cluster.nodes i).lastLogIndex + 1) := by
        unfold Node.propose
        rw [if_pos hrole]
      rw [hidx]
      have htrack := I.propose (hk i) (h.driver i) (h.quiet i) (p := ⟨reply, reqId,
        ⟨(D.cluster.nodes i).currentTerm, (D.cluster.nodes i).lastLogIndex + 1, .command cmd⟩⟩) rfl
      exact (I.works_all ((hk i).append _ _) htrack (Node.works_propose _ (hk i) cmd hrole)).2
    · unfold Node.propose
      rw [if_neg hrole]
      exact h.driver i
  | read i reqId q =>
    have hi : I.holds (D.drivers i) ((D.cluster.nodes i).read S.machine reqId q).1.local := by
      rw [Node.local_read]
      exact h.driver i
    have := h.drive (a := .read i reqId q) rfl hi
    rwa [Function.update_eq_self] at this
  | setObserver i obs =>
    refine ⟨h.reached, fun j => ?_, fun j => ?_⟩ <;> by_cases hj : j = i
    · subst hj
      simp only [Setup.driverStep, Function.update_self]
      exact I.observe obs (h.driver j) (h.quiet j)
    · simp only [Setup.driverStep, Function.update_of_ne hj]
      exact h.driver j
    · subst hj
      simp only [Setup.driverStep, Function.update_self]
      exact h.quiet j
    · simp only [Setup.driverStep, Function.update_of_ne hj]
      exact h.quiet j
  | proposeConf i vs =>
    exact h.call rfl
      (I.works_all (hk i) (h.driver i) (Node.works_take _ (hk i) (.proposeConf vs) nofun)).2 (Node.outbox_proposeConf vs)
  | compact i =>
    refine h.call rfl ?_ Node.outbox_compact.1
    rw [Node.local_compact]
    exact I.works (hk i) (h.driver i) .compact
  | takeReadyReads i => exact h.call rfl (h.driver i) rfl
  | restart i =>
    obtain ⟨hself, hrest⟩ := Setup.nodes_step (a := .restart i) rfl
    have hr := h.reached.step (.restart i)
    have hquiet : (RaftDriver.new ((S.step (.restart i) D.cluster).nodes i).lastApplied).Quiet
        ((S.step (.restart i) D.cluster).nodes i).local := by
      rw [hself]
      exact Node.bounded_restoreFrom _ _ _ _ _
    refine ⟨hr, fun j => ?_, fun j => ?_⟩ <;> by_cases hj : j = i
    · subst hj
      simp only [Setup.driverStep, Function.update_self]
      exact I.start (hr.kept j) hquiet
    · simp only [Setup.driverStep, Function.update_of_ne hj]
      rw [hrest j hj]
      exact h.driver j
    · subst hj
      simp only [Setup.driverStep, Function.update_self]
      exact hquiet
    · simp only [Setup.driverStep, Function.update_of_ne hj]
      rw [hrest j hj]
      exact h.quiet j

/-- **The invariant holds in every run in which every message is as assumed.** -/
theorem run {as : List DriverAction}
    (has : Actions.Allowed S.driverStep (S.Meets P) S.driversInit as) :
    I.Holds (S.driverRun as) := by
  have hinit : I.Holds S.driversInit := by
    have hr : S.Reached S.init := ⟨[], rfl⟩
    exact ⟨hr, fun i => I.start (hr.kept i) nofun, fun _ => nofun⟩
  exact Actions.run_invariant (fun _ _ h ha => h.step ha) hinit has

end DriverInvariant

end CrabScheme.Raft
