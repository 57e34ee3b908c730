import CrabScheme.Lib.Actions
import CrabScheme.Codec.Wire

/-!
# The router of a node

`router.rs`: a node holds a transport for every peer, and `poll` and `poll_channel` drain the
transports, decode the frames and put the messages into the inboxes of the node. A transport is
what its `try_recv` gives one after the other on a channel: frames, and errors other than
`PeerClosed`. A drained channel gives `Ok(None)`, or `PeerClosed` if the connection is closed; both
end the loop alike.

A world is a router together with what has arrived on each channel and what has been delivered, with
the peer and the channel it came from. The inboxes themselves do not keep the origin of a message.

## Main results

* `World.received_step_iff` — which steps lose a frame.
* `poll_lossless_iff` — which runs do.
-/

namespace CrabScheme.Distrib

open Codec (fromBeBytes)

/-- A frame. -/
abbrev Bytes := List UInt8

/-! ## Frames -/

/-- The six channels of a transport. -/
inductive Channel
  | control | consensus | messages | workflow | bulk | observability
deriving DecidableEq, Repr

/-- `Channel::ALL`. -/
def Channel.all : List Channel :=
  [.control, .consensus, .messages, .workflow, .bulk, .observability]

/-- Errors of a transport other than `PeerClosed`. -/
inductive Fault
  | backpressure (channel : Channel) (depth : ℕ)
  | handshake (text : String)
  | framing (text : String)
  | tls (text : String)
  | io (text : String)
  | notImplemented
deriving DecidableEq, Repr

/-- Why an address could not be decoded: the frame ends too early (with the number of bytes that
were asked for), or a name is not UTF-8. -/
inductive Malformed
  | truncated (need : ℕ)
  | nonUtf8 (bytes : Bytes)
deriving DecidableEq, Repr

/-- The errors that `poll` gives. -/
inductive DistribError
  | decode (why : Malformed)
  | transport (e : Fault)
deriving DecidableEq, Repr

/-- A node: `name@host`, with the epoch of its last restart. -/
structure NodeId where
  name : String
  host : String
  epoch : ℕ
deriving DecidableEq, Repr

/-- **The address of an actor** in the cluster. -/
structure DistPid where
  node : NodeId
  localId : ℕ
deriving DecidableEq, Repr

/-- A cursor over a frame; it never asks for more than a machine has. -/
abbrev Cursor (α : Type) := Reader UInt8 Empty DistribError α

namespace Cursor

/-- `take`. -/
def take (n : ℕ) : Cursor Bytes := Reader.window n (.decode (.truncated n))

/-- `get_u16`. -/
def getU16 : Cursor ℕ := do
  let b ← take 2
  pure (fromBeBytes b)

/-- `get_u64`. -/
def getU64 : Cursor ℕ := do
  let b ← take 8
  pure (fromBeBytes b)

/-- `get_str`. -/
def getStr : Cursor String := do
  let len ← getU16
  let b ← take len
  match String.fromUTF8? ⟨b.toArray⟩ with
  | some s => pure s
  | none => Reader.fail (.decode (.nonUtf8 b))

/-- The fields of an address, in the order of the wire format. -/
def distPid : Cursor DistPid := do
  let name ← getStr
  let host ← getStr
  let epoch ← getU64
  let localId ← getU64
  pure ⟨⟨name, host, epoch⟩, localId⟩

end Cursor

/-- **`DistPid::decode`**: the address, and how many bytes it takes. -/
def DistPid.decode (bytes : Bytes) : Except DistribError (DistPid × ℕ) :=
  match Cursor.distPid (fun _ => true) bytes 0 with
  | .ok pid pos => .ok (pid, pos)
  | .err e => .error e

/-- A message for a local actor. -/
structure Message where
  pid : DistPid
  payload : Bytes
deriving DecidableEq, Repr

/-- The message in a frame: the address, then the payload. -/
def Message.ofFrame (frame : Bytes) : Except DistribError Message :=
  match DistPid.decode frame with
  | .ok (pid, consumed) => .ok ⟨pid, frame.drop consumed⟩
  | .error e => .error e

/-! ## Draining -/

/-- What `try_recv` gives: a frame, or an error. -/
inductive Arrival
  | frame (bytes : Bytes)
  | fault (e : Fault)
deriving DecidableEq, Repr

/-- What an arrival brings: a message, or the error that `poll` returns for it. -/
def Arrival.message : Arrival → Except DistribError Message
  | .frame bytes => Message.ofFrame bytes
  | .fault e => .error (.transport e)

/-- The well-formed frames among the arrivals, decoded. -/
def wellFormed (l : List Arrival) : List Message := l.filterMap fun a => a.message.toOption

/-- **The loop over one channel of one peer**: what was decoded, or the error that ends the call;
and what is left in the channel. -/
def drain : List Arrival → Except DistribError (List Message) × List Arrival
  | [] => (.ok [], [])
  | a :: rest =>
    match a.message with
    | .ok m =>
      match drain rest with
      | (.ok ms, left) => (.ok (m :: ms), left)
      | (.error e, left) => (.error e, left)
    | .error e => (.error e, rest)

/-- Where a message is put: the default inbox, or the one of a channel. -/
inductive Inbox
  | default
  | channel (c : Channel)
deriving DecidableEq, Repr

/-- The inbound queues of all transports. -/
abbrev Queues (ι : Type) := ι → Channel → List Arrival

/-- One turn of the loops of a call: a peer, a channel, and the inbox its messages are for. -/
structure Turn (ι : Type) where
  peer : ι
  channel : Channel
  inbox : Inbox
deriving DecidableEq, Repr

/-- A message with the turn that took it. -/
structure Delivery (ι : Type) where
  turn : Turn ι
  message : Message
deriving DecidableEq, Repr

section Draining

variable {ι : Type} [DecidableEq ι]

/-- The queues with one of them replaced. -/
def Queues.set (q : Queues ι) (p : ι) (c : Channel) (l : List Arrival) : Queues ι :=
  fun p' c' => if p' = p ∧ c' = c then l else q p' c'

/-- **The loops of a call.** What was decoded in earlier turns is dropped with the local vectors if
a later one fails. -/
def drainAll : List (Turn ι) → Queues ι → Except DistribError (List (Delivery ι)) × Queues ι
  | [], q => (.ok [], q)
  | t :: ts, q =>
    match drain (q t.peer t.channel) with
    | (.ok ms, left) =>
      match drainAll ts (q.set t.peer t.channel left) with
      | (.ok ds, q') => (.ok (ms.map (⟨t, ·⟩) ++ ds), q')
      | (.error e, q') => (.error e, q')
    | (.error e, left) => (.error e, q.set t.peer t.channel left)

end Draining

/-! ## The router -/

/-- **A router**: its peers in the order in which the map of peers gives them, their queues and the
inboxes of the node. -/
structure Router (ι : Type) where
  peers : List ι
  queues : Queues ι
  inbox : List Message
  chanInboxes : Channel → List Message

/-- `SHARD_CHANNELS`. -/
def shardChannels : List ℕ := [1, 3, 4, 5]

/-- `channel_of`, which is also the index of a channel inbox. -/
def channelOf (ch : ℕ) : Channel := Channel.all.getD (ch % Channel.all.length) .control

namespace Router

variable {ι : Type} [DecidableEq ι]

/-- `deliver_local` and `deliver_local_ch`. -/
def deliver (r : Router ι) (d : Delivery ι) : Router ι :=
  match d.turn.inbox with
  | .default => { r with inbox := r.inbox ++ [d.message] }
  | .channel c =>
    { r with chanInboxes := fun c' => r.chanInboxes c' ++ if c' = c then [d.message] else [] }

/-- One channel of every peer, for one inbox. -/
def turns (r : Router ι) (c : Channel) (inbox : Inbox) : List (Turn ι) :=
  r.peers.map fun p => ⟨p, c, inbox⟩

/-- The turns of `poll`: the `Messages` channel, then the channels of the shards. -/
def pollTurns (r : Router ι) : List (Turn ι) :=
  r.turns .messages .default ++
    shardChannels.flatMap fun ch => r.turns (channelOf ch) (.channel (channelOf ch))

/-- The turns of `poll_channel`. -/
def pollChannelTurns (r : Router ι) (ch : ℕ) : List (Turn ι) :=
  r.turns (channelOf ch) (.channel (channelOf ch))

/-- A call: the turns are made, and what they decoded is delivered at the end. The deliveries stand
for the count that the call returns. -/
def call (r : Router ι) (ts : List (Turn ι)) :
    Except DistribError (List (Delivery ι)) × Router ι :=
  match drainAll ts r.queues with
  | (.ok ds, q) => (.ok ds, ds.foldl deliver { r with queues := q })
  | (.error e, q) => (.error e, { r with queues := q })

/-- **`poll`.** -/
def poll (r : Router ι) : Except DistribError (List (Delivery ι)) × Router ι := r.call r.pollTurns

/-- **`poll_channel`.** -/
def pollChannel (r : Router ι) (ch : ℕ) : Except DistribError (List (Delivery ι)) × Router ι :=
  r.call (r.pollChannelTurns ch)

end Router

/-! ## What a call does -/

/-- An arrival that ends a call with an error. -/
def Arrival.bad (a : Arrival) : Bool := !a.message.toBool

@[simp] lemma wellFormed_nil : wellFormed [] = [] := rfl

lemma wellFormed_append (l l' : List Arrival) :
    wellFormed (l ++ l') = wellFormed l ++ wellFormed l' := List.filterMap_append

lemma wellFormed_cons_ok {a : Arrival} {m : Message} (h : a.message = .ok m) (l : List Arrival) :
    wellFormed (a :: l) = m :: wellFormed l := by
  simp [wellFormed, h, Except.toOption]

lemma wellFormed_cons_error {a : Arrival} {e : DistribError} (h : a.message = .error e)
    (l : List Arrival) : wellFormed (a :: l) = wellFormed l := by
  simp [wellFormed, h, Except.toOption]

/-- **One channel**: either everything in it is well formed and is taken, or it is taken up to the
first bad arrival. -/
lemma drain_cases (l : List Arrival) :
    ((∀ a ∈ l, a.bad = false) ∧ drain l = (.ok (wellFormed l), [])) ∨
    ∃ good b rest e, l = good ++ b :: rest ∧ (∀ a ∈ good, a.bad = false) ∧ b.bad = true ∧
      b.message = .error e ∧ drain l = (.error e, rest) := by
  induction l with
  | nil => exact .inl ⟨by simp, rfl⟩
  | cons a l ih =>
    cases hm : a.message with
    | error e =>
      exact .inr ⟨[], a, l, e, rfl, by simp, by simp [Arrival.bad, hm, Except.toBool], hm,
        by simp [drain, hm]⟩
    | ok m =>
      have ha : a.bad = false := by simp [Arrival.bad, hm, Except.toBool]
      rcases ih with ⟨hall, he⟩ | ⟨good, b, rest, e, rfl, hgood, hb, hbm, he⟩
      · refine .inl ⟨List.forall_mem_cons.mpr ⟨ha, hall⟩, ?_⟩
        simp [drain, hm, he, wellFormed_cons_ok hm]
      · refine .inr ⟨a :: good, b, rest, e, rfl, List.forall_mem_cons.mpr ⟨ha, hgood⟩, hb, hbm, ?_⟩
        simp [drain, hm, he]

lemma wellFormed_eq_nil {l : List Arrival} (h : ∀ a ∈ l, a.bad = false) :
    wellFormed l = [] ↔ l = [] := by
  cases l with
  | nil => simp
  | cons a l =>
    cases hm : a.message with
    | error e => simp [Arrival.bad, hm, Except.toBool] at h
    | ok m => simp [wellFormed_cons_ok hm]

section Calls

variable {ι : Type} [DecidableEq ι]

/-- The messages of a peer and a channel among some deliveries. -/
def fromPeer (p : ι) (c : Channel) (ds : List (Delivery ι)) : List Message :=
  (ds.filter fun d => d.turn.peer = p ∧ d.turn.channel = c).map Delivery.message

@[simp] lemma fromPeer_nil (p : ι) (c : Channel) : fromPeer p c [] = [] := rfl

lemma fromPeer_append (p : ι) (c : Channel) (ds ds' : List (Delivery ι)) :
    fromPeer p c (ds ++ ds') = fromPeer p c ds ++ fromPeer p c ds' := by
  simp [fromPeer]

lemma fromPeer_turn (t : Turn ι) (ms : List Message) :
    fromPeer t.peer t.channel (ms.map (⟨t, ·⟩)) = ms := by
  simp [fromPeer, List.filter_map, Function.comp_def]

lemma fromPeer_turn_of_ne {t : Turn ι} {p : ι} {c : Channel}
    (h : ¬ (p = t.peer ∧ c = t.channel)) (ms : List Message) :
    fromPeer p c (ms.map (⟨t, ·⟩)) = [] := by
  have h' : ¬ (t.peer = p ∧ t.channel = c) := fun ht => h ⟨ht.1.symm, ht.2.symm⟩
  simp [fromPeer, List.filter_map, h']

/-- What the turns of a call find, in their order. -/
def arrivals (ts : List (Turn ι)) (q : Queues ι) : List Arrival :=
  ts.flatMap fun t => q t.peer t.channel

/-- Turns on different queues. -/
def Distinct (ts : List (Turn ι)) : Prop :=
  ts.Pairwise fun t t' => ¬ (t'.peer = t.peer ∧ t'.channel = t.channel)

lemma set_self (q : Queues ι) (p : ι) (c : Channel) (l : List Arrival) : q.set p c l p c = l := by
  simp [Queues.set]

lemma set_of_ne (q : Queues ι) {p p' : ι} {c c' : Channel} (l : List Arrival)
    (h : ¬ (p' = p ∧ c' = c)) : q.set p c l p' c' = q p' c' := by
  simp [Queues.set, h]

lemma arrivals_set {ts : List (Turn ι)} (q : Queues ι) (p : ι) (c : Channel) (l : List Arrival)
    (h : ∀ t ∈ ts, ¬ (t.peer = p ∧ t.channel = c)) : arrivals ts (q.set p c l) = arrivals ts q := by
  exact List.flatMap_congr fun t ht => set_of_ne q l (h t ht)

/-- **A call that returns `Ok`** takes everything and delivers each of the frames. -/
lemma drainAll_ok {ts : List (Turn ι)} {q q' : Queues ι} {ds : List (Delivery ι)}
    (h : drainAll ts q = (.ok ds, q')) :
    (∀ p c, wellFormed (q p c) = fromPeer p c ds ++ wellFormed (q' p c)) ∧
    (∀ t ∈ ts, q' t.peer t.channel = []) ∧ ∀ p c, q p c = [] → q' p c = [] := by
  induction ts generalizing q ds with
  | nil =>
    cases h
    exact ⟨by simp, by simp, fun _ _ => id⟩
  | cons t ts ih =>
    rcases drain_cases (q t.peer t.channel) with ⟨-, he⟩ | ⟨good, b, rest, e, -, -, -, -, he⟩
    · simp only [drainAll, he] at h
      split at h
      · next ds' q'' h' =>
        cases h
        obtain ⟨hsum, hempty, hstay⟩ := ih h'
        refine ⟨fun p c => ?_, fun u hu => ?_, fun p c hpc => hstay p c ?_⟩
        · have hrest := hsum p c
          rw [fromPeer_append]
          by_cases hpc : p = t.peer ∧ c = t.channel
          · obtain ⟨rfl, rfl⟩ := hpc
            rw [set_self, wellFormed_nil, eq_comm, List.append_eq_nil_iff] at hrest
            rw [fromPeer_turn, hrest.1, hrest.2, List.append_nil, List.append_nil]
          · rw [fromPeer_turn_of_ne hpc, List.nil_append, ← hrest, set_of_ne q _ hpc]
        · rcases List.mem_cons.mp hu with rfl | hu
          · exact hstay _ _ (set_self _ _ _ _)
          · exact hempty u hu
        · by_cases hpc' : p = t.peer ∧ c = t.channel
          · rw [hpc'.1, hpc'.2, set_self]
          · rw [set_of_ne q _ hpc', hpc]
      · cases h
    · simp [drainAll, he] at h

lemma arrivals_good {ts : List (Turn ι)} {q q' : Queues ι} {ds : List (Delivery ι)}
    (hts : Distinct ts) (h : drainAll ts q = (.ok ds, q')) :
    ∀ a ∈ arrivals ts q, a.bad = false := by
  induction ts generalizing q ds with
  | nil => simp [arrivals]
  | cons t ts ih =>
    obtain ⟨hne, hts⟩ := List.pairwise_cons.mp hts
    rcases drain_cases (q t.peer t.channel) with ⟨hgood, he⟩ | ⟨good, b, rest, e, -, -, -, -, he⟩
    · simp only [drainAll, he] at h
      split at h
      · next ds' q'' h' =>
        cases h
        have hrest := ih hts h'
        rw [arrivals_set q _ _ _ hne] at hrest
        exact List.forall_mem_append.mpr ⟨hgood, hrest⟩
      · cases h
    · simp [drainAll, he] at h

/-- **A call that fails** delivers nothing of what it has taken: it loses a frame unless the first
thing it meets is bad. -/
lemma drainAll_error {ts : List (Turn ι)} {q q' : Queues ι} {e : DistribError} (hts : Distinct ts)
    (h : drainAll ts q = (.error e, q')) :
    (∃ a ∈ arrivals ts q, a.bad = true) ∧ (∀ p c, ∃ l, q p c = l ++ q' p c) ∧
    (∃ t ∈ ts, (q' t.peer t.channel).length < (q t.peer t.channel).length) ∧
    ((∀ p c, wellFormed (q' p c) = wellFormed (q p c)) ↔
      ∀ a ∈ (arrivals ts q).head?, a.bad = true) := by
  induction ts generalizing q with
  | nil => cases h
  | cons t ts ih =>
    obtain ⟨hne, hts⟩ := List.pairwise_cons.mp hts
    have harr : arrivals (t :: ts) q = q t.peer t.channel ++ arrivals ts q := rfl
    rcases drain_cases (q t.peer t.channel) with
      ⟨hgood, he⟩ | ⟨good, b, rest, e', hq, hgood, hb, hbm, he⟩
    · -- the first turn goes well, a later one fails
      simp only [drainAll, he] at h
      split at h
      · cases h
      · next e' q'' h' =>
        cases h
        obtain ⟨⟨a, ha, hbad⟩, htake, ⟨u, hu, hless⟩, hiff⟩ := ih hts h'
        rw [arrivals_set q _ _ _ hne] at ha hiff
        have hnil : q' t.peer t.channel = [] := by
          obtain ⟨l, hl⟩ := htake t.peer t.channel
          rw [set_self] at hl
          exact (List.append_eq_nil_iff.mp hl.symm).2
        refine ⟨⟨a, by simp [harr, ha], hbad⟩, fun p c => ?_, ⟨u, by simp [hu], ?_⟩, ?_⟩
        · by_cases hpc : p = t.peer ∧ c = t.channel
          · exact ⟨q p c, by rw [hpc.1, hpc.2, hnil, List.append_nil]⟩
          · obtain ⟨l, hl⟩ := htake p c
            exact ⟨l, by rw [← hl, set_of_ne q _ hpc]⟩
        · rwa [set_of_ne q _ (hne u hu)] at hless
        · by_cases hq : q t.peer t.channel = []
          · have hset : q.set t.peer t.channel [] = q := by
              funext p c
              by_cases hpc : p = t.peer ∧ c = t.channel
              · rw [hpc.1, hpc.2, set_self, hq]
              · exact set_of_ne q _ hpc
            rw [hset] at hiff
            rw [harr, hq, List.nil_append, hiff]
          · constructor
            · intro hall
              have := hall t.peer t.channel
              rw [hnil, wellFormed_nil, eq_comm, wellFormed_eq_nil hgood] at this
              exact absurd this hq
            · obtain ⟨a, l, hal⟩ := List.exists_cons_of_ne_nil hq
              intro hhead
              have := hhead a (by simp [harr, hal])
              rw [hgood a (by simp [hal])] at this
              cases this
    · -- the first turn fails
      simp only [drainAll, he] at h
      cases h
      have hself : q.set t.peer t.channel rest t.peer t.channel = rest := set_self _ _ _ _
      refine ⟨⟨b, by simp [harr, hq], hb⟩, fun p c => ?_, ⟨t, by simp, ?_⟩, ?_⟩
      · by_cases hpc : p = t.peer ∧ c = t.channel
        · exact ⟨good ++ [b], by rw [hpc.1, hpc.2, hself, hq]; simp⟩
        · exact ⟨[], by rw [set_of_ne q _ hpc]; rfl⟩
      · rw [hself, hq]
        simp
        omega
      · cases good with
        | nil =>
          rw [harr, hq]
          refine ⟨fun _ => by simp [hb], fun _ p c => ?_⟩
          by_cases hpc : p = t.peer ∧ c = t.channel
          · rw [hpc.1, hpc.2, hself, hq, List.nil_append, wellFormed_cons_error hbm]
          · rw [set_of_ne q _ hpc]
        | cons a good =>
          have ha : a.bad = false := hgood a (by simp)
          rw [harr, hq]
          constructor
          · intro hall
            have hlen := congrArg List.length (hall t.peer t.channel)
            have hpos : 0 < (wellFormed (a :: good)).length :=
              List.length_pos_iff.mpr fun hnil => by simpa using (wellFormed_eq_nil hgood).mp hnil
            rw [hself, hq, wellFormed_append, wellFormed_cons_error hbm, List.length_append] at hlen
            omega
          · intro hhead
            have := hhead a (by simp)
            rw [ha] at this
            cases this

end Calls

/-! ## Runs -/

/-- **A router in its world**: with everything that has arrived and everything that was delivered. -/
structure World (ι : Type) where
  router : Router ι
  arrived : Queues ι
  delivered : List (Delivery ι)

/-- What happens: something arrives from a peer on a channel, or the node polls. -/
inductive Act (ι : Type)
  | arrive (p : ι) (c : Channel) (a : Arrival)
  | poll
  | pollChannel (ch : ℕ)
deriving DecidableEq

namespace World

variable {ι : Type} [DecidableEq ι]

/-- Nothing has arrived yet. -/
def start (peers : List ι) : World ι := ⟨⟨peers, fun _ _ => [], [], fun _ => []⟩, fun _ _ => [], []⟩

/-- The turns of a call; an arrival makes none. -/
def turns (w : World ι) : Act ι → List (Turn ι)
  | .arrive _ _ _ => []
  | .poll => w.router.pollTurns
  | .pollChannel ch => w.router.pollChannelTurns ch

/-- The world after a call. -/
def after (w : World ι) : Except DistribError (List (Delivery ι)) × Router ι → World ι
  | (.ok ds, r) => { w with router := r, delivered := w.delivered ++ ds }
  | (.error _, r) => { w with router := r }

/-- **One step.** -/
def step (act : Act ι) (w : World ι) : World ι :=
  match act with
  | .arrive p c a =>
    { w with
      router := { w.router with queues := w.router.queues.set p c (w.router.queues p c ++ [a]) }
      arrived := w.arrived.set p c (w.arrived p c ++ [a]) }
  | .poll => w.after w.router.poll
  | .pollChannel ch => w.after (w.router.pollChannel ch)

/-- **Lossless reception**: on every channel of every peer, the well-formed frames that have arrived
are those that were delivered, in the same order, followed by those that still wait. -/
def Received (w : World ι) : Prop :=
  ∀ p c, wellFormed (w.arrived p c) =
    fromPeer p c w.delivered ++ wellFormed (w.router.queues p c)

/-- **A call that loses nothing**: it meets no bad arrival, or meets one before any frame. -/
def Clean (w : World ι) (act : Act ι) : Prop :=
  (∀ a ∈ arrivals (w.turns act) w.router.queues, a.bad = false) ∨
    ∀ a ∈ (arrivals (w.turns act) w.router.queues).head?, a.bad = true

/-- The inboxes hold what was delivered to them, in order. -/
def Shown (w : World ι) : Prop :=
  w.router.inbox = (w.delivered.filter fun d => d.turn.inbox = .default).map Delivery.message ∧
  ∀ c, w.router.chanInboxes c =
    (w.delivered.filter fun d => d.turn.inbox = .channel c).map Delivery.message

/-- What holds in every state: the peers are distinct, no message is made up, and the inboxes show
the deliveries. -/
structure Inv (peers : List ι) (w : World ι) : Prop where
  peers : w.router.peers = peers
  count : ∀ p c, (fromPeer p c w.delivered).length + (wellFormed (w.router.queues p c)).length ≤
    (wellFormed (w.arrived p c)).length
  shown : w.Shown

variable {peers : List ι} {w : World ι}

lemma inv_start (peers : List ι) : Inv peers (start peers) :=
  ⟨rfl, by simp [start], by simp [Shown, start]⟩

omit [DecidableEq ι] in
lemma distinct_turns {peers : List ι} (h : peers.Nodup) (c : Channel) (inbox : Inbox) :
    Distinct (peers.map fun p => (⟨p, c, inbox⟩ : Turn ι)) :=
  List.pairwise_map.mpr (h.imp fun hne ht => hne ht.1.symm)

lemma Inv.distinct (hw : Inv peers w) (h : peers.Nodup) (act : Act ι) : Distinct (w.turns act) := by
  have hturns : ∀ c inbox, Distinct (w.router.turns c inbox) := fun c inbox => by
    rw [Router.turns, hw.peers]
    exact distinct_turns h c inbox
  have hchannel : ∀ {c inbox} {t : Turn ι}, t ∈ w.router.turns c inbox → t.channel = c := by
    intro c inbox t ht
    obtain ⟨p, -, rfl⟩ := List.mem_map.mp ht
    rfl
  -- turns on different channels
  have happ : ∀ {c inbox} {ts : List (Turn ι)}, Distinct ts → (∀ t ∈ ts, t.channel ≠ c) →
      Distinct (w.router.turns c inbox ++ ts) := by
    intro c inbox ts hts hne
    refine List.pairwise_append.mpr ⟨hturns c inbox, hts, fun t ht u hu he => ?_⟩
    exact hne u hu (he.2.trans (hchannel ht))
  cases act with
  | arrive p c a => exact List.Pairwise.nil
  | pollChannel ch => exact hturns _ _
  | poll =>
    have hmem : ∀ {chs : List ℕ} {t : Turn ι},
        t ∈ chs.flatMap (fun ch => w.router.turns (channelOf ch) (.channel (channelOf ch))) →
        ∃ ch ∈ chs, t.channel = channelOf ch := by
      intro chs t ht
      obtain ⟨ch, hch, ht⟩ := List.mem_flatMap.mp ht
      exact ⟨ch, hch, hchannel ht⟩
    refine happ ?_ fun t ht => ?_
    · refine happ (happ (happ (happ List.Pairwise.nil ?_) ?_) ?_) ?_
      all_goals
        intro t ht
        obtain ⟨ch, hch, hc⟩ := hmem ht
        rw [hc]
        clear hc ht
        revert ch
        decide
    · obtain ⟨ch, hch, hc⟩ := hmem ht
      rw [hc]
      clear hc ht
      revert ch
      decide

omit [DecidableEq ι] in
lemma foldl_deliver (ds : List (Delivery ι)) (r : Router ι) :
    (ds.foldl Router.deliver r).peers = r.peers ∧ (ds.foldl Router.deliver r).queues = r.queues ∧
    (ds.foldl Router.deliver r).inbox =
      r.inbox ++ (ds.filter fun d => d.turn.inbox = .default).map Delivery.message ∧
    ∀ c, (ds.foldl Router.deliver r).chanInboxes c =
      r.chanInboxes c ++ (ds.filter fun d => d.turn.inbox = .channel c).map Delivery.message := by
  induction ds generalizing r with
  | nil => simp
  | cons d ds ih =>
    obtain ⟨hp, hq, hi, hc⟩ := ih (r.deliver d)
    rw [List.foldl_cons]
    cases hd : d.turn.inbox with
    | default =>
      have hr : r.deliver d = { r with inbox := r.inbox ++ [d.message] } := by
        simp [Router.deliver, hd]
      rw [hr] at hp hq hi hc ⊢
      exact ⟨hp, hq, by simp [hi, hd], fun c => by simp [hc, hd]⟩
    | channel c0 =>
      have hchan : ∀ c, (r.deliver d).chanInboxes c =
          r.chanInboxes c ++ if c = c0 then [d.message] else [] := fun c => by
        simp [Router.deliver, hd]
      have hrest : (r.deliver d).peers = r.peers ∧ (r.deliver d).queues = r.queues ∧
          (r.deliver d).inbox = r.inbox := by
        simp [Router.deliver, hd]
      refine ⟨hp.trans hrest.1, hq.trans hrest.2.1, by simp [hi, hd, hrest.2.2], fun c => ?_⟩
      rw [hc, hchan]
      by_cases hcc : c = c0
      · simp [hcc, hd]
      · simp [hcc, hd, Ne.symm hcc]

/-- **What a call does to the world**, by the answer it gives. -/
lemma after_cases (ts : List (Turn ι)) (w : World ι) :
    (∃ ds q, drainAll ts w.router.queues = (.ok ds, q) ∧
      (w.after (w.router.call ts)).router.queues = q ∧
      (w.after (w.router.call ts)).delivered = w.delivered ++ ds ∧
      (w.Shown → (w.after (w.router.call ts)).Shown)) ∨
    ∃ e q, drainAll ts w.router.queues = (.error e, q) ∧
      w.after (w.router.call ts) = { w with router := { w.router with queues := q } } := by
  cases hd : drainAll ts w.router.queues with
  | mk r q =>
    cases r with
    | error e => exact .inr ⟨e, q, rfl, by simp [Router.call, hd, after]⟩
    | ok ds =>
      obtain ⟨-, hq, hi, hc⟩ := foldl_deliver ds { w.router with queues := q }
      refine .inl ⟨ds, q, rfl, ?_, ?_, fun hs => ?_⟩ <;> simp only [Router.call, hd, after]
      · exact hq
      · refine ⟨?_, fun c => ?_⟩
        · rw [hi, hs.1, List.filter_append, List.map_append]
        · rw [hc, hs.2, List.filter_append, List.map_append]

lemma after_arrived (ts : List (Turn ι)) (w : World ι) :
    (w.after (w.router.call ts)).arrived = w.arrived ∧
    (w.after (w.router.call ts)).router.peers = w.router.peers := by
  simp only [Router.call]
  split
  · exact ⟨rfl, (foldl_deliver _ _).1⟩
  · exact ⟨rfl, rfl⟩

/-- **A call keeps the accounts** iff it is clean: a frame that it has lost is never made up for. -/
lemma received_call_iff {ts : List (Turn ι)} (hts : Distinct ts) (hw : Inv peers w) :
    (w.after (w.router.call ts)).Received ↔ w.Received ∧
      ((∀ a ∈ arrivals ts w.router.queues, a.bad = false) ∨
        ∀ a ∈ (arrivals ts w.router.queues).head?, a.bad = true) := by
  have harrived := (after_arrived ts w).1
  rcases after_cases ts w with ⟨ds, q, hd, hq, hds, -⟩ | ⟨e, q, hd, hafter⟩
  · -- the call takes what it delivers
    obtain ⟨hsum, -, -⟩ := drainAll_ok hd
    have hgood := arrivals_good hts hd
    have hsame : ∀ p c, fromPeer p c (w.delivered ++ ds) ++ wellFormed (q p c) =
        fromPeer p c w.delivered ++ wellFormed (w.router.queues p c) := fun p c => by
      rw [fromPeer_append, List.append_assoc, ← hsum]
    simp only [Received, harrived, hq, hds, hsame]
    exact (and_iff_left (.inl hgood)).symm
  · obtain ⟨⟨b, hb, hbad⟩, htake, -, hiff⟩ := drainAll_error hts hd
    have hsome : ¬ ∀ a ∈ arrivals ts w.router.queues, a.bad = false := fun hall => by
      rw [hall b hb] at hbad
      cases hbad
    rw [hafter, or_iff_right hsome, ← hiff]
    constructor
    · intro hrec
      -- fewer messages wait than before, so none of them can be missing
      have hkept : ∀ p c, wellFormed (q p c) = wellFormed (w.router.queues p c) := fun p c => by
        obtain ⟨l, hl⟩ := htake p c
        have hcount := hw.count p c
        have hlen := congrArg List.length (hrec p c)
        rw [hl, wellFormed_append] at hcount
        have hnil : wellFormed l = [] := List.eq_nil_of_length_eq_zero (by simp at hlen hcount; omega)
        rw [hl, wellFormed_append, hnil, List.nil_append]
      exact ⟨fun p c => by rw [← hkept]; exact hrec p c, hkept⟩
    · rintro ⟨hrec, hkept⟩ p c
      simp only [hkept]
      exact hrec p c

lemma received_arrive_iff (p : ι) (c : Channel) (a : Arrival) :
    (step (.arrive p c a) w).Received ↔ w.Received := by
  refine forall_congr' fun p' => forall_congr' fun c' => ?_
  by_cases hpc : p' = p ∧ c' = c
  · obtain ⟨rfl, rfl⟩ := hpc
    simp only [step, set_self, wellFormed_append, ← List.append_assoc, List.append_left_inj]
  · simp only [step, set_of_ne _ _ hpc]

lemma step_eq_after (w : World ι) {act : Act ι} (h : ∀ p c a, act ≠ .arrive p c a) :
    step act w = w.after (w.router.call (w.turns act)) := by
  cases act with
  | arrive p c a => exact absurd rfl (h p c a)
  | poll => rfl
  | pollChannel ch => rfl

/-- **Which steps lose a frame.** -/
theorem received_step_iff (hpeers : peers.Nodup) (hw : Inv peers w) (act : Act ι) :
    (step act w).Received ↔ w.Received ∧ w.Clean act := by
  by_cases h : ∃ p c a, act = .arrive p c a
  · obtain ⟨p, c, a, rfl⟩ := h
    rw [received_arrive_iff]
    exact (and_iff_left (.inl (by simp [turns, arrivals]))).symm
  · rw [step_eq_after w fun p c a ha => h ⟨p, c, a, ha⟩]
    exact received_call_iff (hw.distinct hpeers act) hw

lemma Inv.step (hpeers : peers.Nodup) (hw : Inv peers w) (act : Act ι) :
    Inv peers (World.step act w) := by
  by_cases h : ∃ p c a, act = .arrive p c a
  · obtain ⟨p, c, a, rfl⟩ := h
    refine ⟨hw.peers, fun p' c' => ?_, hw.shown⟩
    have hcount := hw.count p' c'
    by_cases hpc : p' = p ∧ c' = c
    · obtain ⟨rfl, rfl⟩ := hpc
      simp only [World.step, set_self, wellFormed_append, List.length_append]
      omega
    · simpa only [World.step, set_of_ne _ _ hpc] using hcount
  · rw [step_eq_after w fun p c a ha => h ⟨p, c, a, ha⟩]
    obtain ⟨harrived, hkept⟩ := after_arrived (w.turns act) w
    rcases after_cases (w.turns act) w with ⟨ds, q, hd, hq, hds, hshown⟩ | ⟨e, q, hd, hafter⟩
    · refine ⟨hkept.trans hw.peers, fun p c => ?_, hshown hw.shown⟩
      have hsum := congrArg List.length ((drainAll_ok hd).1 p c)
      have hcount := hw.count p c
      rw [harrived, hq, hds, fromPeer_append]
      simp only [List.length_append] at hsum ⊢
      omega
    · refine ⟨hkept.trans hw.peers, fun p c => ?_, by rw [hafter]; exact hw.shown⟩
      obtain ⟨l, hl⟩ := (drainAll_error (hw.distinct hpeers act) hd).2.1 p c
      have hcount := hw.count p c
      rw [hl, wellFormed_append, List.length_append] at hcount
      rw [hafter]
      simp only
      omega

lemma inv_run (hpeers : peers.Nodup) (as : List (Act ι)) :
    Inv peers (Actions.run World.step as (start peers)) := by
  induction as using List.reverseRecOn with
  | nil => exact inv_start peers
  | append_singleton as a ih =>
    rw [Actions.run_concat]
    exact ih.step hpeers a

/-! ### Repeated polling -/

omit [DecidableEq ι] in
lemma exists_pollTurn {r : Router ι} {p : ι} (hp : p ∈ r.peers) {c : Channel} (hc : c ≠ .control) :
    ∃ t ∈ r.pollTurns, t.peer = p ∧ t.channel = c := by
  have hturn : ∀ inbox, (⟨p, c, inbox⟩ : Turn ι) ∈ r.turns c inbox := fun inbox =>
    List.mem_map.mpr ⟨p, hp, rfl⟩
  have hshard : ∀ ch ∈ shardChannels, c = channelOf ch → ∃ t ∈ r.pollTurns, t.peer = p ∧
      t.channel = c := fun ch hch hcc => by
    refine ⟨⟨p, c, .channel c⟩, List.mem_append_right _ ?_, rfl, rfl⟩
    exact List.mem_flatMap.mpr ⟨ch, hch, hcc ▸ hturn _⟩
  cases c with
  | control => exact absurd rfl hc
  | messages => exact ⟨_, List.mem_append_left _ (hturn .default), rfl, rfl⟩
  | consensus => exact hshard 1 (by decide) rfl
  | workflow => exact hshard 3 (by decide) rfl
  | bulk => exact hshard 4 (by decide) rfl
  | observability => exact hshard 5 (by decide) rfl

omit [DecidableEq ι] in
lemma length_arrivals_lt {ts : List (Turn ι)} {q q' : Queues ι}
    (hle : ∀ p c, (q' p c).length ≤ (q p c).length) {t : Turn ι} (ht : t ∈ ts)
    (hlt : (q' t.peer t.channel).length < (q t.peer t.channel).length) :
    (arrivals ts q').length < (arrivals ts q).length := by
  simp only [arrivals, List.length_flatMap]
  exact List.sum_lt_sum _ _ (fun u _ => hle _ _) ⟨t, ht, hlt⟩

/-- **Repeated polls come to an end**: every call that fails leaves less behind. -/
lemma exists_drained (hpeers : peers.Nodup) (n : ℕ) (hw : Inv peers w)
    (hn : (arrivals w.router.pollTurns w.router.queues).length ≤ n) :
    ∃ k, ∀ p ∈ peers, ∀ c ≠ .control,
      (Actions.run World.step (List.replicate k .poll) w).router.queues p c = [] := by
  induction n generalizing w with
  | zero =>
    -- nothing waits
    refine ⟨0, fun p hp c hc => ?_⟩
    obtain ⟨t, ht, rfl, rfl⟩ := exists_pollTurn (hw.peers ▸ hp) hc
    have hnil := List.eq_nil_of_length_eq_zero (Nat.le_zero.mp hn)
    exact List.flatMap_eq_nil_iff.mp hnil t ht
  | succ n ih =>
    rcases after_cases w.router.pollTurns w with ⟨ds, q, hd, hq, -, -⟩ | ⟨e, q, hd, hafter⟩
    · refine ⟨1, fun p hp c hc => ?_⟩
      obtain ⟨t, ht, rfl, rfl⟩ := exists_pollTurn (hw.peers ▸ hp) hc
      have hempty := (drainAll_ok hd).2.1 t ht
      rw [← hq] at hempty
      exact hempty
    · obtain ⟨-, htake, ⟨t, ht, hlt⟩, -⟩ := drainAll_error (hw.distinct hpeers .poll) hd
      have hle : ∀ p c, (q p c).length ≤ (w.router.queues p c).length := fun p c => by
        obtain ⟨l, hl⟩ := htake p c
        rw [hl, List.length_append]
        exact Nat.le_add_left _ _
      have hless := length_arrivals_lt hle ht hlt
      have hstep : World.step .poll w = { w with router := { w.router with queues := q } } := hafter
      have hinv := hw.step hpeers .poll
      obtain ⟨k, hk⟩ := ih hinv (by rw [hstep]; exact Nat.le_of_lt_succ (hless.trans_le hn))
      exact ⟨k + 1, hk⟩

end World

/-- **Which runs of `poll` and `poll_channel` receive losslessly.** Whatever arrives and however the
calls fall, the accounts of all peers and channels are right at the end iff every call met no bad
arrival, or met one before any frame; and from every state, polling again and again empties the
channels. -/
theorem poll_lossless_iff {ι : Type} [DecidableEq ι] (peers : List ι) (hpeers : peers.Nodup)
    (as : List (Act ι)) :
    ((Actions.run World.step as (World.start peers)).Received ↔
      Actions.Allowed World.step World.Clean (World.start peers) as) ∧
    (Actions.run World.step as (World.start peers)).Shown ∧
    ∃ k, ∀ p ∈ peers, ∀ c ≠ .control, (Actions.run World.step
      (as ++ List.replicate k .poll) (World.start peers)).router.queues p c = [] := by
  have hinv := World.inv_run hpeers as
  refine ⟨?_, hinv.shown, ?_⟩
  · induction as using List.reverseRecOn with
    | nil => simp [World.Received, World.start, Actions.Allowed]
    | append_singleton as a ih =>
      have hw := World.inv_run hpeers as
      rw [Actions.run_concat, World.received_step_iff hpeers hw, ih hw, Actions.allowed_concat]
  · obtain ⟨k, hk⟩ := World.exists_drained hpeers _ hinv le_rfl
    exact ⟨k, by simpa only [Actions.run_append] using hk⟩

/-- A frame for the actor with the local id 0 of the node with empty names, with one byte. -/
def sampleFrame : Bytes := List.replicate 20 0 ++ [7]

/-- One peer, one good frame, one poll. -/
theorem poll_lossless_iff_sample :
    ([0] : List ℕ).Nodup ∧
    ((Actions.run World.step [.arrive 0 .messages (.frame sampleFrame), .poll]
        (World.start [0])).Received ↔
      Actions.Allowed World.step World.Clean (World.start [0])
        [.arrive 0 .messages (.frame sampleFrame), .poll]) ∧
    (Actions.run World.step [.arrive 0 .messages (.frame sampleFrame), .poll]
      (World.start [0])).Shown ∧
    ∃ k, ∀ p ∈ [0], ∀ c ≠ .control, (Actions.run World.step
      ([.arrive 0 .messages (.frame sampleFrame), .poll] ++ List.replicate k .poll)
        (World.start [0])).router.queues p c = [] :=
  ⟨by decide, poll_lossless_iff [0] (by decide) _⟩

/-- **A truncated frame takes a good one with it.** Both are on the `Messages` channel of one peer
when the node polls: the call fails, and further calls deliver nothing. -/
theorem good_frame_lost :
    ¬ (Actions.run World.step [.arrive 0 .messages (.frame sampleFrame),
        .arrive 0 .messages (.frame [0]), .poll, .poll, .poll] (World.start [0])).Received := by
  intro h
  have := h 0 .messages
  revert this
  decide +kernel

end CrabScheme.Distrib
