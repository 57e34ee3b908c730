import CrabScheme.Lib.Rounds
import CrabScheme.Consensus.Epaxos

/-!
# The EPaxos engine plays rounds of agreement on dependencies

Every step of a cluster is a sequence of moves of `Rounds`, where the moves of an instance are those
of its leader's collect and of the replicas' records. Since a message is delivered at most once, the
messages on their way are live tokens, no two the same.

## Main results

* `Refines.step` — every step of the cluster is matched by moves of the rounds.
* `refines_run` — so is every run.
-/

namespace CrabScheme.Consensus

open Rounds

open Rounds (Attributes Token)

variable {ι κ σ : Type} [LinearOrder ι]

/-- What a message says about an instance. -/
def attrs (seq : ℕ) (deps : List (Inst ι)) : Attributes (Inst ι) := ⟨seq, {i | i ∈ deps}⟩

/-- `fast-quorum` of a cluster. -/
def Members.fastQuorum (ms : Members ι) : ℕ :=
  let f := (ms.ids.length - 1) / 2
  f + (f + 1) / 2

/-- **The protocol the engine plays.** -/
def protocol (ms : Members ι) (interferes : κ → κ → Bool) : Protocol ι (Inst ι) κ where
  leader := Prod.fst
  conflict a b := interferes a b = true
  quorum Q := (∀ q ∈ Q, q ∈ ms.ids) ∧ ms.fastQuorum ≤ Q.card

/-- The state of the rounds of a cluster. -/
abbrev Play (ι κ : Type) := State ι (Inst ι) κ

/-- The token a message is. -/
def Envelope.token (e : Envelope ι κ) : Token ι (Inst ι) :=
  match e.msg with
  | .preaccept inst _ _ _ => ⟨.ask, inst, e.receiver⟩
  | .preacceptReply inst _ _ => ⟨.reply, inst, e.sender⟩
  | .accept inst _ _ _ => ⟨.accept, inst, e.receiver⟩
  | .acceptReply inst => ⟨.ok, inst, e.sender⟩
  | .commit inst _ _ _ => ⟨.commit, inst, e.receiver⟩

/-- A message says what the rounds say. -/
def Envelope.Tells (ms : Members ι) (a : Play ι κ) (e : Envelope ι κ) : Prop :=
  match e.msg with
  | .preaccept inst command seq deps =>
    a.command inst = some command ∧ a.answer inst inst.1 = some (attrs seq deps)
  | .preacceptReply inst seq deps =>
    e.sender ∈ ms.ids ∧ a.answer inst e.sender = some (attrs seq deps)
  | .accept inst command seq deps =>
    a.command inst = some command ∧ a.offer inst = some (attrs seq deps)
  | .acceptReply _ => True
  | .commit inst command seq deps =>
    a.command inst = some command ∧ a.choice inst = some (attrs seq deps)

variable {e : Envelope ι κ} {col : Collect ι κ} {res : Epaxos ι κ σ × List (ι × Msg ι κ)}

omit [LinearOrder ι] in
lemma Envelope.Tells.grows {ms : Members ι} {a a' : Play ι κ} (h : e.Tells ms a)
    (hgrows : a.Grows a') : e.Tells ms a' := by
  unfold Envelope.Tells at h ⊢
  split at h
  · exact ⟨hgrows.command h.1, hgrows.answer h.2⟩
  · exact ⟨h.1, hgrows.answer h.2⟩
  · exact ⟨hgrows.command h.1, hgrows.offer h.2⟩
  · trivial
  · exact ⟨hgrows.command h.1, hgrows.choice h.2⟩

/-- The record says that the instance is committed. -/
def Rec.Settled (r : Rec ι κ) : Prop := r.status = .committed ∨ r.status = .executed

/-- A record of the replica `q` is in step. -/
structure Recorded (a : Play ι κ) (q : ι) (i : Inst ι) (r : Rec ι κ) : Prop where
  command : a.command i = some r.command
  settled : r.Settled → q ∈ a.learned i ∧ a.choice i = some (attrs r.seq r.deps)

/-- A collect of the replica `q` is in step. -/
structure Collecting (ms : Members ι) (a : Play ι κ) (q : ι) (i : Inst ι) (col : Collect ι κ) :
    Prop where
  leader : q = i.1
  command : a.command i = some col.command
  unchosen : a.choice i = none
  initial : a.answer i q = some (attrs col.iseq col.ideps)
  members : ∀ p ∈ a.counted i, p ∈ ms.ids
  replies : (a.counted i).card = col.replies
  agreed : ∃ Q : Finset ι, Q ⊆ a.counted i ∧ col.agreed ≤ Q.card ∧
    ∀ p ∈ Q, a.answer i p = some (attrs col.iseq col.ideps)
  union : ∀ p ∈ a.counted i, ∀ b, a.answer i p = some b → b ≤ attrs col.useq col.udeps
  offer : a.offer i = if col.accepting then some (attrs col.useq col.udeps) else none
  oks : if col.accepting then (a.oks i).card = col.oks else col.oks = 1

/-- **A replica is in step with the rounds.** -/
structure Plays (ms : Members ι) (interferes : κ → κ → Bool) (a : Play ι κ) (q : ι)
    (st : Epaxos ι κ σ) : Prop where
  member : q ∈ ms.ids
  id : st.id = q
  replicas : st.replicas = ms.ids
  interferes : st.interferes = interferes
  distinct : st.Distinct
  slots : ∀ n, st.nextSlot ≤ n → a.command (q, n) = none
  known : ∀ i, a.known q i = (st.cmdsGet i).map Rec.seq
  records : ∀ {i r}, st.cmdsGet i = some r → Recorded a q i r
  collects : ∀ {i col}, st.collectGet i = some col → Collecting ms a q i col
  trace : st.executed.Nodup
  learned : ∀ i ∈ st.executed, q ∈ a.learned i
  executed : ∀ {i r}, st.cmdsGet i = some r → r.status = .executed → i ∈ st.executed
  committed : ∀ {i r}, st.cmdsGet i = some r → r.status = .committed → i ∉ st.executed

/-- **A cluster is in step with the rounds**, and so are the messages on their way. -/
structure Refines (ms : Members ι) (interferes : κ → κ → Bool) (c : EpxCluster ι κ σ)
    (a : Play ι κ) : Prop where
  inv : Inv (protocol ms interferes) a
  nodes : ∀ {q st}, c.get q = some st → Plays ms interferes a q st
  tokens : (c.net.map Envelope.token).Nodup
  live : ∀ e ∈ c.net, a.Live e.token
  contents : ∀ e ∈ c.net, e.Tells ms a

/-! ## Moves of one replica about one instance -/

/-- Moves of the replica `q` about the instance `i`. Most moves change one field. -/
structure Frame (q : ι) (i : Inst ι) (a a' : Play ι κ) : Prop where
  grows : a.Grows a'
  known : ∀ p j, ¬ (p = q ∧ j = i) → a'.known p j = a.known p j := by intros; rfl
  fresh : ∀ j, ¬ (j = i ∧ i.1 = q) → a.command j = none → a'.command j = none := by
    exact fun _ _ h => h
  learned : ∀ j, a.learned j ⊆ a'.learned j := by exact fun _ => subset_rfl
  counted : ∀ j, ¬ (j = i ∧ i.1 = q) → a'.counted j = a.counted j := by intros; rfl
  offer : ∀ j, ¬ (j = i ∧ i.1 = q) → a'.offer j = a.offer j := by intros; rfl
  choice : ∀ j, ¬ (j = i ∧ i.1 = q) → a'.choice j = a.choice j := by intros; rfl
  oks : ∀ j, ¬ (j = i ∧ i.1 = q) → a'.oks j = a.oks j := by intros; rfl

namespace Frame

variable {q : ι} {i : Inst ι} {a a' a'' : Play ι κ}

omit [LinearOrder ι] in
lemma refl : Frame q i a a where
  grows := .refl a

omit [LinearOrder ι] in
lemma trans (h : Frame q i a a') (h' : Frame q i a' a'') : Frame q i a a'' where
  grows := h.grows.trans h'.grows
  known p j hp := (h'.known p j hp).trans (h.known p j hp)
  fresh j hj hc := h'.fresh j hj (h.fresh j hj hc)
  learned j := (h.learned j).trans (h'.learned j)
  counted j hj := (h'.counted j hj).trans (h.counted j hj)
  offer j hj := (h'.offer j hj).trans (h.offer j hj)
  choice j hj := (h'.choice j hj).trans (h.choice j hj)
  oks j hj := (h'.oks j hj).trans (h.oks j hj)

lemma note (n : ℕ) : Frame q i a (a.note q i n) where
  grows := State.grows_note n
  known p j hp := by simp [State.note, State.noted_apply, hp]

lemma propose (hq : i.1 = q) (hi : a.command i = none) (c : κ) : Frame q i a (a.propose i c) where
  grows := State.grows_propose hi c
  fresh j hj hc := by
    have hne : j ≠ i := fun h => hj ⟨h, hq⟩
    simpa [State.propose, hne] using hc

lemma reply (hi : a.answer i q = none) (b : Attributes (Inst ι)) (n : ℕ) :
    Frame q i a (a.reply i q b n) where
  grows := State.grows_reply hi b n
  known p j hp := by simp [State.reply, State.noted_apply, hp]

lemma count (hq : i.1 = q) (p : ι) : Frame q i a (a.count i p) where
  grows := State.grows_count
  counted _ hj := Function.update_of_ne (fun h => hj ⟨h, hq⟩) _ _

lemma makeOffer (hq : i.1 = q) (hi : a.offer i = none) (o : Attributes (Inst ι)) :
    Frame q i a (a.makeOffer i o) where
  grows := State.grows_makeOffer hi o
  offer _ hj := Function.update_of_ne (fun h => hj ⟨h, hq⟩) _ _

lemma accept (p : ι) : Frame q i a (a.accept i p) where
  grows := State.grows_accept

lemma ok (hq : i.1 = q) (p : ι) : Frame q i a (a.ok i p) where
  grows := State.grows_ok
  oks _ hj := Function.update_of_ne (fun h => hj ⟨h, hq⟩) _ _

lemma choose (hq : i.1 = q) (hi : a.choice i = none) (v : Attributes (Inst ι)) :
    Frame q i a (a.choose i v) where
  grows := State.grows_choose hi v
  choice _ hj := Function.update_of_ne (fun h => hj ⟨h, hq⟩) _ _

lemma learn (p : ι) : Frame q i a (a.learn i p) where
  grows := State.grows_learn
  learned _ _ hx := State.mem_update.mpr (.inr hx)

end Frame

section Frames

variable {ms : Members ι} {interferes : κ → κ → Bool} {q p : ι} {i j : Inst ι} {a a' : Play ι κ}
  {st : Epaxos ι κ σ}

omit [LinearOrder ι] in
lemma Recorded.frame {r : Rec ι κ} (h : Recorded a p j r) (hf : Frame q i a a') :
    Recorded a' p j r :=
  ⟨hf.grows.command h.command, fun hr =>
    ⟨hf.learned j (h.settled hr).1, hf.grows.choice (h.settled hr).2⟩⟩

omit [LinearOrder ι] in
lemma Collecting.frame (h : Collecting ms a p j col) (hinv : Inv (protocol ms interferes) a)
    (hf : Frame q i a a') (hj : ¬ (j = i ∧ i.1 = q)) : Collecting ms a' p j col where
  leader := h.leader
  command := hf.grows.command h.command
  unchosen := (hf.choice j hj).trans h.unchosen
  initial := hf.grows.answer h.initial
  members := by
    rw [hf.counted j hj]
    exact h.members
  replies := by rw [hf.counted j hj, h.replies]
  agreed := by
    obtain ⟨Q, hQ, hcard, hall⟩ := h.agreed
    exact ⟨Q, by rwa [hf.counted j hj], hcard, fun x hx => hf.grows.answer (hall x hx)⟩
  union := by
    rw [hf.counted j hj]
    intro x hx b hb
    obtain ⟨b', hb'⟩ := hinv.counted hx
    obtain rfl : b' = b := Option.some_inj.mp ((hf.grows.answer hb').symm.trans hb)
    exact h.union x hx b' hb'
  offer := (hf.offer j hj).trans h.offer
  oks := by
    rw [hf.oks j hj]
    exact h.oks

lemma Plays.frame (h : Plays ms interferes a p st) (hinv : Inv (protocol ms interferes) a)
    (hf : Frame q i a a') (hp : p ≠ q) : Plays ms interferes a' p st :=
  { h with
    slots n hn := hf.fresh (p, n) (fun hj => hp (by rw [← hj.2, ← hj.1])) (h.slots n hn)
    known j := (hf.known p j fun hj => hp hj.1).trans (h.known j)
    records hr := (h.records hr).frame hf
    collects {j col} hcol := by
      have hj := (h.collects hcol).leader
      exact (h.collects hcol).frame hinv hf fun hi => hp (by rw [hj, hi.1, hi.2])
    learned j hj := hf.learned j (h.learned j hj) }

end Frames

/-! ## What a replica does -/

/-- **What a replica's transition amounts to**: moves about the instance `i` that use up the token
`t`, if any, after which the replica is in step and its outputs are new live tokens. -/
structure Reaction (ms : Members ι) (interferes : κ → κ → Bool) (q : ι) (i : Inst ι)
    (t : Option (Token ι (Inst ι))) (a : Play ι κ) (res : Epaxos ι κ σ × List (ι × Msg ι κ))
    (a' : Play ι κ) : Prop where
  frame : Frame q i a a'
  inv : Inv (protocol ms interferes) a'
  plays : Plays ms interferes a' q res.1
  live : ∀ {u}, a.Live u → t ≠ some u → a'.Live u
  tokens : (res.2.map fun o => (⟨q, o.1, o.2⟩ : Envelope ι κ).token).Nodup
  outputs : ∀ o ∈ res.2, (⟨q, o.1, o.2⟩ : Envelope ι κ).Tells ms a' ∧
    a'.Live (⟨q, o.1, o.2⟩ : Envelope ι κ).token ∧ ¬ a.Live (⟨q, o.1, o.2⟩ : Envelope ι κ).token

section Reactions

variable {ms : Members ι} {interferes : κ → κ → Bool} {q p : ι} {i j : Inst ι} {a a' : Play ι κ}
  {st : Epaxos ι κ σ} {t : Option (Token ι (Inst ι))}

lemma Reaction.idle (hst : Plays ms interferes a q st)
    (hinv : Inv (protocol ms interferes) a) :
    Reaction ms interferes q i t a (st, []) a :=
  ⟨.refl, hinv, hst, fun hu _ => hu, List.nodup_nil, fun _ ho => absurd ho List.not_mem_nil⟩

lemma tokens_bcast (hst : Plays ms interferes a q st) (msg : Msg ι κ) (stage : Stage)
    (hmsg : ∀ p, (⟨q, p, msg⟩ : Envelope ι κ).token = ⟨stage, i, p⟩) :
    ((st.bcast msg).map fun o => (⟨q, o.1, o.2⟩ : Envelope ι κ).token).Nodup ∧
      ∀ o ∈ st.bcast msg, o.2 = msg ∧ o.1 ≠ q := by
  constructor
  · rw [Epaxos.bcast, List.map_map]
    refine List.Nodup.map_on (fun x _ y _ hxy => ?_) ?_
    · simpa [hmsg] using hxy
    · rw [Epaxos.peers, hst.replicas]
      exact ms.nodup.filter _
  · intro o ho
    obtain ⟨x, hx, rfl⟩ := List.mem_map.mp ho
    have := (List.mem_filter.mp hx).2
    rw [hst.id] at this
    exact ⟨rfl, by simpa using this⟩

lemma Plays.cmdsSet (hst : Plays ms interferes a q st) (hf : Frame q i a a')
    (hcollects : ∀ {j col}, st.collectGet j = some col → Collecting ms a' q j col)
    (hslots : ∀ n, st.nextSlot ≤ n → a'.command (q, n) = none) {r : Rec ι κ}
    (hknown : a'.known q i = some r.seq) (hr : Recorded a' q i r) (hexec : r.status ≠ .executed)
    (hcomm : r.status = .committed → i ∉ st.executed) :
    Plays ms interferes a' q (st.cmdsSet i r) :=
  { hst with
    distinct := Alist.nodup_replace hst.distinct
    slots := hslots
    known j := by
      have := hf.known q j
      grind [Epaxos.cmdsGet_cmdsSet, hst.known j]
    records {j r'} hr' := by
      have hold : st.cmdsGet j = some r' → Recorded a' q j r' := fun h => (hst.records h).frame hf
      grind [Epaxos.cmdsGet_cmdsSet]
    collects := hcollects
    learned j hj := hf.learned j (hst.learned j hj)
    executed {j r'} hr' hs := by
      have hold := hst.executed (i := j) (r := r')
      show j ∈ st.executed
      grind [Epaxos.cmdsGet_cmdsSet]
    committed {j r'} hr' hs := by
      have hold := hst.committed (i := j) (r := r')
      show j ∉ st.executed
      grind [Epaxos.cmdsGet_cmdsSet] }

lemma Plays.execute (h : Plays ms interferes a q st) : Plays ms interferes a q st.execute := by
  have hran := Epaxos.execute_ran h.distinct
  have hready : ∀ i ∈ st.ordered, ∃ r, st.cmdsGet i = some r ∧ r.status = .committed :=
    fun i hi => Epaxos.committed_of_mem_elig h.distinct (Epaxos.ordered_perm.mem_iff.mp hi)
  -- a record after the execution is one from before, which may have run now
  have hback : ∀ {i r}, st.execute.cmdsGet i = some r → ∃ r', st.cmdsGet i = some r' ∧
      r'.command = r.command ∧ r'.seq = r.seq ∧ r'.deps = r.deps ∧
      (i ∉ st.ordered ∧ r' = r ∨
        i ∈ st.ordered ∧ r'.status = .committed ∧ r.status = .executed) := by
    intro i r hr
    rw [hran.cmdsGet] at hr
    split at hr
    · next hi =>
      obtain ⟨r', hr', hs⟩ := hready i hi
      rw [hr', Option.map_some, Option.some_inj] at hr
      subst hr
      exact ⟨r', hr', rfl, rfl, rfl, .inr ⟨hi, hs, rfl⟩⟩
    · next hi => exact ⟨r, hr, rfl, rfl, rfl, .inl ⟨hi, rfl⟩⟩
  exact
    { member := h.member
      id := hran.id.trans h.id
      replicas := hran.replicas.trans h.replicas
      interferes := hran.interferes.trans h.interferes
      distinct := hran.distinct h.distinct
      slots := fun n hn => h.slots n (hran.nextSlot ▸ hn)
      known := fun i => by
        rw [h.known, hran.cmdsGet]
        split
        · rw [Option.map_map]
          rfl
        · rfl
      records := fun {i r} hr => by
        obtain ⟨r', hr', hc, hs, hd, hcase⟩ := hback hr
        have hrec := h.records hr'
        refine ⟨hc ▸ hrec.command, fun hset => ?_⟩
        rw [← hs, ← hd]
        rcases hcase with ⟨-, rfl⟩ | ⟨-, hcomm, -⟩
        · exact hrec.settled hset
        · exact hrec.settled (.inl hcomm)
      collects := fun hcol => h.collects (by rwa [Epaxos.collectGet, hran.collects] at hcol)
      trace := by
        rw [hran.executed]
        refine h.trace.append (Epaxos.ordered_perm.nodup_iff.mpr (Epaxos.nodup_elig h.distinct)) ?_
        intro i hi hi'
        obtain ⟨r, hr, hs⟩ := hready i hi'
        exact h.committed hr hs hi
      learned := fun i hi => by
        rw [hran.executed, List.mem_append] at hi
        rcases hi with hi | hi
        · exact h.learned i hi
        · obtain ⟨r, hr, hs⟩ := hready i hi
          exact ((h.records hr).settled (.inl hs)).1
      executed := fun {i r} hr hs => by
        rw [hran.executed, List.mem_append]
        obtain ⟨r', hr', -, -, -, ⟨-, rfl⟩ | ⟨hi, -⟩⟩ := hback hr
        · exact .inl (h.executed hr' hs)
        · exact .inr hi
      committed := fun {i r} hr hs => by
        rw [hran.executed, List.mem_append, not_or]
        obtain ⟨r', hr', -, -, -, ⟨hi, rfl⟩ | ⟨-, -, hex⟩⟩ := hback hr
        · exact ⟨h.committed hr' hs, hi⟩
        · rw [hex] at hs
          cases hs }

lemma Plays.collectSet (hst : Plays ms interferes a q st)
    (hinv : Inv (protocol ms interferes) a) (hf : Frame q i a a')
    (hknown : a'.known = a.known) (hcommand : a'.command = a.command)
    (hcol : Collecting ms a' q i col) : Plays ms interferes a' q (st.collectSet i col) :=
  { hst with
    distinct := hst.distinct
    slots n hn := hcommand ▸ hst.slots n hn
    known j := hknown ▸ hst.known j
    records hr := (hst.records hr).frame hf
    collects {j col'} hcol' := by
      rw [Epaxos.collectGet_collectSet] at hcol'
      split at hcol'
      · next hj => exact Option.some_inj.mp hcol' ▸ hj ▸ hcol
      · next hj => exact (hst.collects hcol').frame hinv hf fun h => hj h.1
    learned j hj := hf.learned j (hst.learned j hj)
    committed := hst.committed }

lemma Plays.collectDel (hst : Plays ms interferes a q st) :
    Plays ms interferes a q (st.collectDel i) :=
  { hst with
    collects := fun {j col} hcol => by
      rw [Epaxos.collectGet_collectDel] at hcol
      split at hcol
      · cases hcol
      · exact hst.collects hcol
    distinct := hst.distinct
    known := hst.known
    records := hst.records
    executed := hst.executed
    committed := hst.committed }

omit [LinearOrder ι] in
lemma Collecting.congr (h : Collecting ms a q j col) (hcommand : a'.command = a.command)
    (hchoice : a'.choice = a.choice) (hanswer : a'.answer = a.answer)
    (hcounted : a'.counted = a.counted) (hoffer : a'.offer = a.offer) (hoks : a'.oks = a.oks)
    : Collecting ms a' q j col := by
  refine ⟨h.leader, ?_, ?_, ?_, ?_, ?_, ?_, ?_, ?_, ?_⟩ <;>
    simp only [hcommand, hchoice, hanswer, hcounted, hoffer, hoks]
  exacts [h.command, h.unchosen, h.initial, h.members, h.replies, h.agreed, h.union,
    h.offer, h.oks]

lemma Reaction.andThen {a'' : Play ι κ} (h : Reaction ms interferes q i t a (st, []) a')
    (h' : Reaction ms interferes q i none a' res a'')
    (ht : ∀ o ∈ res.2, t ≠ some (⟨q, o.1, o.2⟩ : Envelope ι κ).token) :
    Reaction ms interferes q i t a res a'' where
  frame := h.frame.trans h'.frame
  inv := h'.inv
  plays := h'.plays
  live hu hne := h'.live (h.live hu hne) (Option.some_ne_none _).symm
  tokens := h'.tokens
  outputs o ho := by
    obtain ⟨htells, hlive, hnot⟩ := h'.outputs o ho
    exact ⟨htells, hlive, fun hlive' => hnot (h.live hlive' (ht o ho))⟩

lemma Plays.covers (hst : Plays ms interferes a q st) (c : κ) {b : Attributes (Inst ι)}
    (hb : attrs (st.depsAndSeq c i).1 (st.depsAndSeq c i).2 ≤ b) :
    Covers (protocol ms interferes) a q i c b := by
  intro j d n hne hd hn hconf
  rw [hst.known, Option.map_eq_some_iff] at hn
  obtain ⟨r, hr, rfl⟩ := hn
  obtain rfl : r.command = d := Option.some_inj.mp ((hst.records hr).command.symm.trans hd)
  obtain ⟨hdep, hseq⟩ := Epaxos.depsAndSeq_covers hr hne (hst.interferes ▸ hconf)
  exact ⟨hb.2 hdep, hseq.trans_le hb.1⟩

variable (hst : Plays ms interferes a q st) (hinv : Inv (protocol ms interferes) a)

include hst hinv

/-- **A proposal.** -/
lemma propose_reaction (c : κ) :
    ∃ a', Reaction ms interferes q (q, st.nextSlot) none a (st.propose c) a' := by
  set i : Inst ι := (q, st.nextSlot) with hidef
  have hq : i.1 = q := rfl
  have hi : a.command i = none := hst.slots _ le_rfl
  have hans : ∀ p, a.answer i p = none := fun p => hinv.unanswered hi
  set seq := (st.depsAndSeq c i).1
  set deps := (st.depsAndSeq c i).2
  -- the instance is proposed, its leader answers, and counts its answer
  set a1 := a.propose i c with ha1
  set a2 := a1.reply i q (attrs seq deps) seq with ha2
  set a3 := a2.count i q with ha3
  have hcov : Covers (protocol ms interferes) a1 q i c (attrs seq deps) := by
    intro j d n hne hd hn hconf
    refine hst.covers c le_rfl j d n hne ?_ hn hconf
    simpa [ha1, State.propose, hne] using hd
  have hinv1 := hinv.propose hi c
  have hc1 : a1.command i = some c := by simp [ha1, State.propose]
  have hinv2 := hinv1.reply hc1 (hans q) hcov seq
  have hself : a2.answer i q = some (attrs seq deps) := by simp [ha2, State.reply]
  have hothers : ∀ p, p ≠ q → a3.answer i p = none := fun p hp => by
    have hnone : a1.answer i p = none := hans p
    simpa [ha3, ha2, State.count, State.reply, hp] using hnone
  have hframe : Frame q i a a3 :=
    ((Frame.propose hq hi c).trans (Frame.reply (a := a1) (hans q) _ seq)).trans (Frame.count hq q)
  have hcounted : a3.counted i = {q} := by
    have hnone : a.counted i = ∅ := by
      refine Finset.eq_empty_of_forall_notMem fun p hp => ?_
      obtain ⟨b, hb⟩ := hinv.counted hp
      simp [hans p] at hb
    simp [ha3, ha2, ha1, State.count, State.reply, State.propose, hnone]
  have hcol : Collecting ms a3 q i ⟨c, seq, deps, 1, 1, seq, deps, false, 1⟩ := by
    refine ⟨rfl, hc1, (hinv.unproposed hi).2, hself, fun p hp => ?_, by simp [hcounted],
      ⟨{q}, by simp [hcounted], by simp, fun p hp => Finset.mem_singleton.mp hp ▸ hself⟩,
      fun p hp b hb => ?_,
      (hinv.unproposed hi).1, rfl⟩
    · rw [hcounted, Finset.mem_singleton] at hp
      exact hp ▸ hst.member
    · rw [hcounted, Finset.mem_singleton] at hp
      subst hp
      obtain rfl : attrs seq deps = b := Option.some_inj.mp (hself.symm.trans hb)
      exact le_rfl
  have hplays : Plays ms interferes a3 q (st.propose c).1 := by
    have hnext : Plays ms interferes a q { st with nextSlot := st.nextSlot + 1 } :=
      { hst with
        slots := fun n hn => hst.slots n (Nat.le_of_succ_le hn)
        committed := hst.committed }
    have hold : ∀ {j col}, st.collectGet j = some col → j ≠ i := by
      rintro j col hcol rfl
      simp [(hst.collects hcol).command] at hi
    have hset := hnext.cmdsSet (r := ⟨c, seq, deps, .preaccepted⟩) hframe
      (fun {j col} hj => (hst.collects hj).frame hinv hframe fun h => hold hj h.1)
      (fun n hn => hframe.fresh (q, n)
        (fun h => by
          have : n = st.nextSlot := congrArg Prod.snd h.1
          simp only at hn
          omega)
        (hst.slots n (Nat.le_of_succ_le hn)))
      (by simp [ha3, ha2, State.count, State.reply, State.noted_apply])
      ⟨hc1, fun h => by rcases h with h | h <;> cases h⟩ (by simp) (by simp)
    have := hset.collectSet (hinv2.count hself) (.refl (i := i)) rfl rfl hcol
    simpa only [Epaxos.propose, hst.id] using this
  have hout : (st.propose c).2 = (st.propose c).1.bcast (.preaccept i c seq deps) := by
    simp only [Epaxos.propose, hst.id]
    rfl
  have htok := tokens_bcast hplays (.preaccept i c seq deps) .ask fun _ => rfl
  rw [← hout] at htok
  refine ⟨a3, hframe, hinv2.count hself, hplays, fun {u} hu _ => ?_, ?_, ?_⟩
  · refine State.Live.count (State.Live.reply (hu.propose hi c) (hans q) ?_ _ _) ?_
    · rintro rfl
      exact hu.1 hi
    · rintro rfl
      exact hu.1 (hans q)
  · exact htok.1
  · intro o ho
    obtain ⟨p, m⟩ := o
    obtain ⟨rfl, hp⟩ := htok.2 _ ho
    exact ⟨⟨hc1, hself⟩, ⟨Option.ne_none_iff_exists'.mpr ⟨c, hc1⟩, hothers p hp⟩, fun h => h.1 hi⟩

/-- **A `preaccept` is answered.** -/
lemma onPreaccept_reaction {c : κ} (hc : a.command i = some c) (hlive : a.Live ⟨.ask, i, q⟩)
    (seq : ℕ) (deps : List (Inst ι)) :
    ∃ a', Reaction ms interferes q i (some ⟨.ask, i, q⟩) a (st.onPreaccept p i c seq deps) a' := by
  set mseq := max seq (st.depsAndSeq c i).1 with hmseq
  set mdeps := setUnion deps (st.depsAndSeq c i).2 with hmdeps
  have hans : a.answer i q = none := hlive.2
  have hcov : Covers (protocol ms interferes) a q i c (attrs mseq mdeps) :=
    hst.covers c ⟨le_max_right _ _, fun _ hj => Epaxos.mem_setUnion.mpr (.inr hj)⟩
  have hframe : Frame q i a (a.reply i q (attrs mseq mdeps) mseq) := Frame.reply hans _ _
  have hself : (a.reply i q (attrs mseq mdeps) mseq).answer i q = some (attrs mseq mdeps) := by
    simp [State.reply]
  have hplays : Plays ms interferes (a.reply i q (attrs mseq mdeps) mseq) q
      (st.onPreaccept p i c seq deps).1 := by
    refine hst.cmdsSet hframe (fun {j col} hj => ?_) hst.slots ?_ ⟨hc, fun h => ?_⟩ ?_ ?_
    · -- its leader has answered, so this replica does not lead the instance
      refine (hst.collects hj).frame hinv hframe fun h => ?_
      have := (hst.collects hj).initial
      rw [h.1, hans] at this
      cases this
    · show a.noted q i mseq q i = some mseq
      simp [State.noted_apply]
    · rcases h with h | h <;> cases h
    · simp
    · simp
  refine ⟨_, hframe, hinv.reply hc hans hcov mseq, hplays, fun {u} hu hne => ?_, ?_, ?_⟩
  · exact hu.reply hans (fun h => hne (h ▸ rfl)) _ _
  · exact List.nodup_singleton _
  · intro o ho
    obtain rfl := List.mem_singleton.mp ho
    refine ⟨⟨hst.member, hself⟩, ⟨Option.ne_none_iff_exists'.mpr ⟨_, hself⟩, fun hmem => ?_⟩,
      fun h => h.1 hans⟩
    obtain ⟨b, hb⟩ : ∃ b, a.answer i q = some b := hinv.counted hmem
    simp [hans] at hb

variable {seq : ℕ} {deps : List (Inst ι)}

/-- **An `accept` is recorded.** -/
lemma onAccept_reaction {c : κ} (hc : a.command i = some c) (ho : a.offer i = some (attrs seq deps))
    (hlive : a.Live ⟨.accept, i, q⟩) :
    ∃ a', Reaction ms interferes q i (some ⟨.accept, i, q⟩) a (st.onAccept p i c seq deps) a' := by
  have hframe : Frame q i a ((a.accept i q).note q i seq) := (Frame.accept q).trans (.note seq)
  have hplays : Plays ms interferes ((a.accept i q).note q i seq) q
      (st.onAccept p i c seq deps).1 := by
    refine hst.cmdsSet hframe (fun hj => ?_) hst.slots ?_ ⟨hc, fun h => ?_⟩ ?_ ?_
    · exact (hst.collects hj).congr rfl rfl rfl rfl rfl rfl
    · simp [State.note, State.noted_apply]
    · rcases h with h | h <;> cases h
    · simp
    · simp
  refine ⟨_, hframe, (hinv.accept ho).note hc seq, hplays, fun {u} hu hne => ?_, ?_, ?_⟩
  · exact State.Live.accept hu fun h => hne (h ▸ rfl)
  · exact List.nodup_singleton _
  · intro o ho'
    obtain rfl := List.mem_singleton.mp ho'
    exact ⟨trivial, ⟨State.mem_update.mpr (.inl ⟨rfl, rfl⟩), fun h => hlive.2 (hinv.oks h)⟩,
      fun h => hlive.2 h.1⟩

/-- **A `commit` is recorded**, and what is ready runs. -/
lemma onCommit_reaction {c : κ} (hc : a.command i = some c)
    (hv : a.choice i = some (attrs seq deps)) (hlive : a.Live ⟨.commit, i, q⟩) :
    ∃ a', Reaction ms interferes q i (some ⟨.commit, i, q⟩) a (st.onCommit i c seq deps) a' := by
  have hframe : Frame q i a ((a.learn i q).note q i seq) := (Frame.learn q).trans (.note seq)
  have hplays : Plays ms interferes ((a.learn i q).note q i seq) q
      (st.cmdsSet i ⟨c, seq, deps, .committed⟩) := by
    refine hst.cmdsSet hframe (fun hj => ?_) hst.slots ?_ ⟨hc, fun _ => ⟨?_, hv⟩⟩ ?_ fun _ hi => ?_
    · exact (hst.collects hj).congr rfl rfl rfl rfl rfl rfl
    · simp [State.note, State.noted_apply]
    · exact State.mem_update.mpr (.inl ⟨rfl, rfl⟩)
    · simp
    · exact hlive.2 (hst.learned i hi)
  refine ⟨_, hframe, (hinv.learn hv).note hc seq, hplays.execute, fun {u} hu hne => ?_, ?_, ?_⟩
  · exact State.Live.learn hu fun h => hne (h ▸ rfl)
  · exact List.nodup_nil
  · exact fun o ho => absurd ho List.not_mem_nil

/-- **The leader commits**, the offer or what a whole quorum said. -/
lemma commitLeader_reaction (hcol : Collecting ms a q i col)
    (hv : a.offer i = some (attrs seq deps) ∨ ∃ Q, (protocol ms interferes).quorum Q ∧ ∀ x ∈ Q, a.answer i x = some (attrs seq deps))
    : ∃ a', Reaction ms interferes q i none a (st.commitLeader i col.command seq deps) a' ∧
      ∀ o ∈ (st.commitLeader i col.command seq deps).2, o.2 = .commit i col.command seq deps := by
  have hq : i.1 = q := hcol.leader.symm
  have hnone := hinv.unchosen hcol.unchosen
  have hinv1 := hinv.choose hcol.command hv
  set a1 := a.choose i (attrs seq deps) with ha1
  set a2 := a1.learn i q with ha2
  have hv1 : a1.choice i = some (attrs seq deps) := by simp [ha1, State.choose]
  have hlearned : a2.learned i = {q} := by
    simp [ha2, ha1, State.learn, State.choose, hnone]
  have hframe : Frame q i a (a2.note q i seq) :=
    ((Frame.choose hq hcol.unchosen _).trans (Frame.learn q)).trans (.note seq)
  have hplays : Plays ms interferes (a2.note q i seq) q
      ((st.collectDel i).cmdsSet i ⟨col.command, seq, deps, .committed⟩) := by
    refine hst.collectDel.cmdsSet hframe (fun {j col'} hj => ?_) hst.slots ?_
      ⟨hcol.command, fun _ => ⟨?_, hv1⟩⟩ ?_ fun _ hi => ?_
    · have hne : j ≠ i := by
        rintro rfl
        simp at hj
      exact ((hst.collectDel).collects hj).frame hinv hframe fun h => hne h.1
    · simp [State.note, State.noted_apply]
    · simp [State.note, hlearned]
    · simp
    · have := hst.learned i hi
      simp [hnone] at this
  have htok := tokens_bcast hplays.execute (.commit i col.command seq deps) .commit
    fun _ => rfl
  refine ⟨_, ⟨hframe, (hinv1.learn hv1).note hcol.command seq, hplays.execute, fun {u} hu _ => ?_,
    htok.1, ?_⟩, fun o ho => (htok.2 o ho).1⟩
  · refine State.Live.learn (hu.choose hcol.unchosen _) ?_
    rintro rfl
    exact hu.1 hcol.unchosen
  · intro o ho
    obtain ⟨x, m⟩ := o
    obtain ⟨rfl, hx⟩ := htok.2 _ ho
    refine ⟨⟨hcol.command, hv1⟩, ⟨Option.ne_none_iff_exists'.mpr ⟨_, hv1⟩, fun h => hx ?_⟩,
      fun h => h.1 hcol.unchosen⟩
    exact Finset.mem_singleton.mp (hlearned ▸ h)

omit hst hinv in
lemma Collecting.reply (h : Collecting ms a q i col) (hacc : col.accepting = false)
    (hp : p ∈ ms.ids) (hans : a.answer i p = some (attrs seq deps)) (hnot : p ∉ a.counted i) :
    Collecting ms (a.count i p) q i (col.reply seq deps) := by
  have hcounted : (a.count i p).counted i = insert p (a.counted i) := by
    simp [State.count]
  refine ⟨h.leader, h.command, h.unchosen, h.initial, fun x hx => ?_, ?_, ?_, fun x hx b hb => ?_,
    ?_, ?_⟩
  · rw [hcounted, Finset.mem_insert] at hx
    rcases hx with rfl | hx
    · exact hp
    · exact h.members x hx
  · rw [hcounted, Finset.card_insert_of_notMem hnot, h.replies, Nat.add_comm]
    rfl
  · obtain ⟨Q, hQ, hcard, hall⟩ := h.agreed
    rw [hcounted]
    by_cases hagree : seq = col.iseq ∧ deps = col.ideps
    · refine ⟨insert p Q, Finset.insert_subset_insert p hQ, ?_, fun x hx => ?_⟩
      · rw [Finset.card_insert_of_notMem fun hx => hnot (hQ hx)]
        simpa [Collect.reply, hagree] using hcard
      · rcases Finset.mem_insert.mp hx with rfl | hx
        · rwa [hagree.1, hagree.2] at hans
        · exact hall x hx
    · exact ⟨Q, hQ.trans (Finset.subset_insert p _), by simpa [Collect.reply, hagree] using hcard,
        hall⟩
  · rw [hcounted, Finset.mem_insert] at hx
    rcases hx with rfl | hx
    · obtain rfl : attrs seq deps = b := Option.some_inj.mp (hans.symm.trans hb)
      exact ⟨le_max_right _ _, fun _ hj => Epaxos.mem_setUnion.mpr (.inr hj)⟩
    · have hle := h.union x hx b hb
      exact ⟨hle.1.trans (le_max_left _ _), fun _ hj => Epaxos.mem_setUnion.mpr (.inl (hle.2 hj))⟩
  · have := h.offer
    rw [hacc] at this
    simpa [Collect.reply, hacc, State.count] using this
  · have := h.oks
    simpa [Collect.reply, hacc] using this

lemma offer_reaction (hcol : Collecting ms a q i col) (hacc : col.accepting = false)
    (hquorum : ms.fastQuorum ≤ col.replies) : ∃ a', Reaction ms interferes q i none a
      (((st.collectSet i { col with accepting := true }).cmdsSet i
          ⟨col.command, col.useq, col.udeps, .accepted⟩),
        (((st.collectSet i { col with accepting := true }).cmdsSet i
          ⟨col.command, col.useq, col.udeps, .accepted⟩)).bcast
          (.accept i col.command col.useq col.udeps)) a' := by
  have hq : i.1 = q := hcol.leader.symm
  have hnone : a.offer i = none := by simpa [hacc] using hcol.offer
  have hempty := hinv.unoffered hnone
  have hinv1 := hinv.makeOffer hcol.command
    ⟨hcol.members, hquorum.trans hcol.replies.ge⟩ hcol.union
  set a1 := a.makeOffer i (attrs col.useq col.udeps) with ha1
  set a2 := a1.accept i q with ha2
  set a3 := a2.ok i q with ha3
  have ho1 : a1.offer i = some (attrs col.useq col.udeps) := by
    simp [ha1, State.makeOffer]
  have haccepted : a3.accepted i = {q} := by
    simp [ha3, ha2, ha1, State.ok, State.accept, State.makeOffer, hempty]
  have hoks : a3.oks i = {q} := by
    have hoks : a.oks i = ∅ := Finset.eq_empty_of_forall_notMem fun x hx => by
      have := hinv.oks hx
      simp [hempty] at this
    simp [ha3, ha2, ha1, State.ok, State.accept, State.makeOffer, hoks]
  have hinv3 : Inv (protocol ms interferes) a3 :=
    (hinv1.accept ho1).ok (State.mem_update.mpr (.inl ⟨rfl, rfl⟩))
  have hframe : Frame q i a a3 :=
    ((Frame.makeOffer hq hnone _).trans (Frame.accept q)).trans (Frame.ok hq q)
  have hcol3 : Collecting ms a3 q i { col with accepting := true } :=
    ⟨hcol.leader, hcol.command, hcol.unchosen, hcol.initial, hcol.members, hcol.replies,
      hcol.agreed, hcol.union, ho1, by
        have := hcol.oks
        rw [hacc] at this
        simpa [hoks] using this.symm⟩
  have hplays3 := hst.collectSet hinv hframe rfl rfl hcol3
  have hplays := hplays3.cmdsSet (r := ⟨col.command, col.useq, col.udeps, .accepted⟩)
    (.note col.useq) (fun hj => (hplays3.collects hj).congr rfl rfl rfl rfl rfl rfl) hplays3.slots
    (by simp [State.note, State.noted_apply])
    ⟨hcol.command, fun h => by rcases h with h | h <;> cases h⟩ (by simp) (by simp)
  have htok := tokens_bcast hplays (.accept i col.command col.useq col.udeps) .accept
    fun _ => rfl
  refine ⟨_, hframe.trans (.note col.useq), hinv3.note hcol.command _, hplays,
    fun {u} hu _ => ?_, htok.1, ?_⟩
  · have hu1 := hu.makeOffer hnone (attrs col.useq col.udeps)
    refine State.Live.ok (State.Live.accept hu1 ?_) ?_
    · rintro rfl
      exact hu.1 hnone
    · rintro rfl
      have := hu.1
      simp [hempty] at this
  · intro o ho
    obtain ⟨x, m⟩ := o
    obtain ⟨rfl, hx⟩ := htok.2 _ ho
    refine ⟨⟨hcol.command, ho1⟩, ⟨Option.ne_none_iff_exists'.mpr ⟨_, ho1⟩, fun h => hx ?_⟩,
      fun h => h.1 hnone⟩
    exact Finset.mem_singleton.mp (haccepted ▸ h)

/-- **A reply to `preaccept`.** -/
lemma onPreacceptReply_reaction (hp : p ∈ ms.ids) (hans : a.answer i p = some (attrs seq deps))
    (hlive : a.Live ⟨.reply, i, p⟩) :
    ∃ a', Reaction ms interferes q i (some ⟨.reply, i, p⟩) a (st.onPreacceptReply i seq deps)
      a' := by
  unfold Epaxos.onPreacceptReply
  split
  · exact ⟨a, .idle hst hinv⟩
  · next col hget =>
    have hcol := hst.collects hget
    split
    · exact ⟨a, .idle hst hinv⟩
    · next hacc =>
      rw [Bool.not_eq_true] at hacc
      have hcol1 := hcol.reply hacc hp hans hlive.2
      have hinv1 := hinv.count hans
      have hframe : Frame q i a (a.count i p) := .count hcol.leader.symm p
      have hplays := hst.collectSet hinv hframe rfl rfl hcol1
      have hfirst : Reaction ms interferes q i (some ⟨.reply, i, p⟩) a
          (st.collectSet i (col.reply seq deps), []) (a.count i p) :=
        ⟨hframe, hinv1, hplays, fun hu hne => hu.count fun h => hne (h ▸ rfl), List.nodup_nil,
          fun _ ho => absurd ho List.not_mem_nil⟩
      have hfast : (st.collectSet i (col.reply seq deps)).fastQuorum = ms.fastQuorum := by
        rw [Epaxos.fastQuorum, hplays.replicas]
        rfl
      simp only [hfast]
      split
      · exact ⟨_, hfirst⟩
      · next hmany =>
        split
        · next hagreed =>
          obtain ⟨Q, hQ, hcard, hall⟩ := hcol1.agreed
          obtain ⟨a', hreact, hout⟩ := commitLeader_reaction hplays hinv1 hcol1
            (.inr ⟨Q, ⟨fun x hx => hcol1.members x (hQ hx), hagreed.trans hcard⟩, hall⟩)
          refine ⟨a', hfirst.andThen hreact fun o ho => ?_⟩
          rw [Envelope.token, hout o ho]
          simp
        · obtain ⟨a', hreact⟩ := offer_reaction hplays hinv1 hcol1 hacc (not_lt.mp hmany)
          refine ⟨a', hfirst.andThen hreact fun o ho => ?_⟩
          obtain ⟨x, -, rfl⟩ := List.mem_map.mp ho
          simp [Envelope.token]

/-- **A reply to `accept`.** -/
lemma onAcceptReply_reaction (hlive : a.Live ⟨.ok, i, p⟩) :
    ∃ a', Reaction ms interferes q i (some ⟨.ok, i, p⟩) a (st.onAcceptReply i) a' := by
  unfold Epaxos.onAcceptReply
  split
  · exact ⟨a, .idle hst hinv⟩
  · next col hget =>
    have hcol := hst.collects hget
    split
    · next hacc =>
      have hoffer : a.offer i = some (attrs col.useq col.udeps) := by simpa [hacc] using hcol.offer
      have hinv1 := hinv.ok hlive.1
      have hframe : Frame q i a (a.ok i p) := .ok hcol.leader.symm p
      have hcol1 : Collecting ms (a.ok i p) q i { col with oks := 1 + col.oks } := by
        refine ⟨hcol.leader, hcol.command, hcol.unchosen, hcol.initial, hcol.members, hcol.replies,
          hcol.agreed, hcol.union, hcol.offer, ?_⟩
        have := hcol.oks
        rw [hacc, if_pos rfl] at this
        have hcard : ((a.ok i p).oks i).card = (a.oks i).card + 1 := by
          simp only [State.ok, Function.update_self]
          exact Finset.card_insert_of_notMem hlive.2
        simp only [hacc, if_true]
        omega
      have hplays := hst.collectSet hinv hframe rfl rfl hcol1
      have hfirst : Reaction ms interferes q i (some ⟨.ok, i, p⟩) a
          (st.collectSet i { col with oks := 1 + col.oks }, []) (a.ok i p) :=
        ⟨hframe, hinv1, hplays, fun hu hne => hu.ok fun h => hne (h ▸ rfl), List.nodup_nil,
          fun _ ho => absurd ho List.not_mem_nil⟩
      dsimp only
      split
      · obtain ⟨a', hreact, hout⟩ := commitLeader_reaction hplays hinv1 hcol1 (.inl hoffer)
        refine ⟨a', hfirst.andThen hreact fun o ho => ?_⟩
        rw [Envelope.token, hout o ho]
        simp
      · exact ⟨_, hfirst⟩
    · exact ⟨a, .idle hst hinv⟩

omit hst hinv in
/-- **Every message is answered by moves of the rounds.** -/
lemma step_reaction (hst : Plays ms interferes a e.receiver st)
    (hinv : Inv (protocol ms interferes) a) (htells : e.Tells ms a) (hlive : a.Live e.token)
    : ∃ i a', Reaction ms interferes e.receiver i (some e.token) a (st.step e.sender e.msg) a' := by
  obtain ⟨sender, receiver, msg⟩ := e
  cases msg with
  | preaccept i c seq deps => exact ⟨i, onPreaccept_reaction hst hinv htells.1 hlive seq deps⟩
  | preacceptReply i seq deps =>
    exact ⟨i, onPreacceptReply_reaction hst hinv htells.1 htells.2 hlive⟩
  | accept i c seq deps => exact ⟨i, onAccept_reaction hst hinv htells.1 htells.2 hlive⟩
  | acceptReply i => exact ⟨i, onAcceptReply_reaction hst hinv hlive⟩
  | commit i c seq deps => exact ⟨i, onCommit_reaction hst hinv htells.1 htells.2 hlive⟩

end Reactions

/-! ## The cluster -/

section Cluster

variable {ms : Members ι} {interferes : κ → κ → Bool} {c : EpxCluster ι κ σ} {a : Play ι κ}

lemma EpxCluster.get_put {q : ι} {rest : List (Envelope ι κ)} (p : ι) :
    (c.put q rest res).get p = if p = q then some res.1 else c.get p :=
  Alist.get_replace p

lemma Refines.put (h : Refines ms interferes c a) {q : ι} {i : Inst ι}
    {t : Option (Token ι (Inst ι))} {rest : List (Envelope ι κ)} {a' : Play ι κ}
    (hrest : rest.Sublist c.net) (ht : ∀ e ∈ rest, t ≠ some e.token)
    (hreact : Reaction ms interferes q i t a res a') :
    Refines ms interferes (c.put q rest res) a' := by
  have hnet : ∀ e ∈ (c.put q rest res).net, e ∈ rest ∨ ∃ o ∈ res.2, e = ⟨q, o.1, o.2⟩ := by
    intro e he
    rcases List.mem_append.mp he with he | he
    · exact .inl he
    · obtain ⟨o, ho, rfl⟩ := List.mem_map.mp he
      exact .inr ⟨o, ho, rfl⟩
  refine ⟨hreact.inv, fun {p st} hp => ?_, ?_, fun e he => ?_, fun e he => ?_⟩
  · rw [EpxCluster.get_put] at hp
    split at hp
    · next hpq =>
      obtain rfl := Option.some_inj.mp hp
      exact hpq ▸ hreact.plays
    · next hpq => exact (h.nodes hp).frame h.inv hreact.frame hpq
  · rw [EpxCluster.put, List.map_append, List.map_map]
    refine List.Nodup.append ((hrest.map _).nodup h.tokens) hreact.tokens ?_
    -- the outputs are new tokens: none of them was live before
    intro u hu hu'
    obtain ⟨e, he, rfl⟩ := List.mem_map.mp hu
    obtain ⟨o, ho, heq⟩ := List.mem_map.mp hu'
    refine (hreact.outputs o ho).2.2 ?_
    rw [show (⟨q, o.1, o.2⟩ : Envelope ι κ).token = e.token from heq]
    exact h.live e (hrest.subset he)
  · rcases hnet e he with he | ⟨o, ho, rfl⟩
    · exact hreact.live (h.live e (hrest.subset he)) (ht e he)
    · exact (hreact.outputs o ho).2.1
  · rcases hnet e he with he | ⟨o, ho, rfl⟩
    · exact (h.contents e (hrest.subset he)).grows hreact.frame.grows
    · exact (hreact.outputs o ho).1

omit [LinearOrder ι] in
lemma token_ne_of_eraseIdx {l : List (Envelope ι κ)} (hl : (l.map Envelope.token).Nodup) {k : ℕ}
    (he : l[k]? = some e) : ∀ e' ∈ l.eraseIdx k, e.token ≠ e'.token := by
  intro e' he' heq
  obtain ⟨j, hjk, hj⟩ := List.mem_eraseIdx_iff_getElem?.mp he'
  have hk' : (l.map Envelope.token)[k]? = some e.token := by simp [he]
  have hj' : (l.map Envelope.token)[j]? = some e.token := by simp [hj, heq]
  have hlt : j < (l.map Envelope.token).length := (List.getElem?_eq_some_iff.mp hj').1
  exact hjk ((List.getElem?_inj hlt hl).mp (hj'.trans hk'.symm))

/-- **Every step of the cluster is matched by moves of the rounds.** -/
theorem Refines.step (h : Refines ms interferes c a) (act : EpxAct ι κ) :
    ∃ a', a.Grows a' ∧ Refines ms interferes (EpxCluster.step act c) a' := by
  cases act with
  | propose id command =>
    unfold EpxCluster.step
    dsimp only
    split
    · exact ⟨a, .refl a, h⟩
    · next st hget =>
      obtain ⟨a', hreact⟩ := propose_reaction (h.nodes hget) h.inv command
      exact ⟨a', hreact.frame.grows,
        h.put (List.Sublist.refl _) (fun _ _ => (Option.some_ne_none _).symm) hreact⟩
  | deliver k =>
    unfold EpxCluster.step
    dsimp only
    split
    · exact ⟨a, .refl a, h⟩
    · next e he =>
      split
      · exact ⟨a, .refl a, h⟩
      · next st hget =>
        have hmem := List.mem_of_getElem? he
        obtain ⟨i, a', hreact⟩ :=
          step_reaction (h.nodes hget) h.inv (h.contents e hmem) (h.live e hmem)
        refine ⟨a', hreact.frame.grows,
          h.put (List.eraseIdx_sublist _ _) (fun e' he' heq => ?_) hreact⟩
        exact token_ne_of_eraseIdx h.tokens he e' he' (Option.some_inj.mp heq)

lemma EpxCluster.get_make {apply : σ → κ → σ} {sm : σ} {q : ι} {st : Epaxos ι κ σ}
    (hget : (epxMake ms interferes apply sm).get q = some st) :
    q ∈ ms.ids ∧ st = makeEpaxos q ms.ids interferes apply sm := by
  obtain ⟨p, hp, heq⟩ := List.mem_map.mp (Alist.mem_of_get hget)
  obtain ⟨rfl, rfl⟩ := heq
  exact ⟨hp, rfl⟩

lemma refines_make (apply : σ → κ → σ) (sm : σ) :
    Refines ms interferes (epxMake ms interferes apply sm) State.empty where
  inv := .empty
  nodes {q st} hget := by
    obtain ⟨hq, rfl⟩ := EpxCluster.get_make hget
    exact
      { member := hq
        id := rfl
        replicas := rfl
        interferes := rfl
        distinct := List.nodup_nil
        slots := fun _ _ => rfl
        known := fun _ => rfl
        records := nofun
        collects := nofun
        trace := List.nodup_nil
        learned := fun _ hi => absurd hi List.not_mem_nil
        executed := nofun
        committed := fun hr => by cases hr }
  tokens := List.nodup_nil
  live _ he := absurd he List.not_mem_nil
  contents _ he := absurd he List.not_mem_nil

/-- **Every run of a cluster plays rounds.** -/
theorem refines_run (ms : Members ι) (interferes : κ → κ → Bool) (apply : σ → κ → σ) (sm : σ)
    (as : List (EpxAct ι κ)) :
    ∃ a, Refines ms interferes
      (Actions.run EpxCluster.step as (epxMake ms interferes apply sm)) a := by
  have hstep : ∀ (c : EpxCluster ι κ σ) (act : EpxAct ι κ), (∃ a, Refines ms interferes c a) →
      True → ∃ a, Refines ms interferes (EpxCluster.step act c) a :=
    fun _ act ⟨_, h⟩ _ => (h.step act).imp fun _ h' => h'.2
  exact Actions.run_invariant hstep ⟨_, refines_make apply sm⟩
    (Actions.allowed_of_mem (fun _ _ _ => trivial) _)

end Cluster

end CrabScheme.Consensus
