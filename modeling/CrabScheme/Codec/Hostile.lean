import CrabScheme.Codec.RoundTrip

/-!
# Hostile frames

The decoders trust the length fields of a frame: the length of a byte string is added to the
position of the cursor, and a vector is allocated for as many ids or entries as the frame announces.
A length that is too large makes the addition overflow, or the allocation exceed the address space,
before the frame is found to be too short. These are the only ways in which a decoder breaks down.

A *length field* of a format is described by the bytes that stand before it, which are those that
the encoder writes there, and by what a length asks of the machine.

## Main results

* `decoders_total_iff`.
* `hostile_lengths_panic`.
-/

namespace CrabScheme.Codec

open Cursor

open Raft (ReplicaId Bytes ConfState EntryPayload Entry)
open Reader (Ends Spells Quiet)

/-! ## Length fields -/

/-- The length fields of a format: the bytes before, and what a length asks for. -/
abbrev LengthFields := Bytes → (ℕ → Demand) → Prop

/-- The length of a byte string. -/
def BlobLength (head : Bytes) : LengthFields := fun stem ask =>
  stem = head ∧ ask = fun n => .extent (head.length + 8 + n)

/-- The length of a vector of ids. -/
def IdsLength (head : Bytes) : LengthFields := fun stem ask => stem = head ∧ ask = .reserveIds

/-- The length fields of a membership. -/
inductive ConfLength (head : Bytes) : LengthFields
  | simple {stem ask} : IdsLength (head ++ putU8 0) stem ask → ConfLength head stem ask
  | old {stem ask} : IdsLength (head ++ putU8 1) stem ask → ConfLength head stem ask
  | new {stem ask} (old : List ReplicaId) : IdsFit old →
      IdsLength (head ++ putU8 1 ++ putIds old) stem ask → ConfLength head stem ask

/-- **The length fields of an entry.** -/
inductive EntryLength (head : Bytes) : LengthFields
  | command {stem ask} (term index : ℕ) : U64 term → U64 index →
      BlobLength (head ++ putU64 term ++ putU64 index ++ putU8 0) stem ask →
      EntryLength head stem ask
  | config {stem ask} (term index : ℕ) : U64 term → U64 index →
      ConfLength (head ++ putU64 term ++ putU64 index ++ putU8 2) stem ask →
      EntryLength head stem ask

/-- What stands before the variable part of the messages that have one. -/
def header (tag : UInt8) (a b c d : ℕ) : Bytes :=
  putU8 tag ++ putU64 a ++ putU64 b ++ putU64 c ++ putU64 d

/-- **The length fields of a Raft message.** -/
inductive MessageLength : LengthFields
  | entries {ask} (term leader prevLogIndex prevLogTerm : ℕ) : U64 term → U64 leader →
      U64 prevLogIndex → U64 prevLogTerm → ask = .reserveEntries →
      MessageLength (header 2 term leader prevLogIndex prevLogTerm) ask
  | entry {stem ask} (term leader prevLogIndex prevLogTerm n : ℕ) (es : List Entry) : U64 term →
      U64 leader → U64 prevLogIndex → U64 prevLogTerm → U64 n → es.length < n →
      (∀ e ∈ es, EntryFits e) →
      EntryLength (header 2 term leader prevLogIndex prevLogTerm ++ putU64 n ++
        (es.map putEntry).flatten) stem ask →
      MessageLength stem ask
  | config {stem ask} (term leader lastIncludedIndex lastIncludedTerm : ℕ) : U64 term →
      U64 leader → U64 lastIncludedIndex → U64 lastIncludedTerm →
      ConfLength (header 4 term leader lastIncludedIndex lastIncludedTerm) stem ask →
      MessageLength stem ask
  | data {stem ask} (term leader lastIncludedIndex lastIncludedTerm : ℕ) (c : ConfState) :
      U64 term → U64 leader → U64 lastIncludedIndex → U64 lastIncludedTerm → ConfFits c →
      BlobLength (header 4 term leader lastIncludedIndex lastIncludedTerm ++ putConf c) stem ask →
      MessageLength stem ask

/-- **The length fields of an EPaxos message** that ask something of the machine. -/
inductive EpaxosLength : LengthFields
  | proposal {stem ask} (tag : UInt8) (i : Epaxos.Instance) (ballot : ℕ) : tag = 0 ∨ tag = 2 →
      InstFits i → U64 ballot → BlobLength (putU8 tag ++ putInstance i ++ putU64 ballot) stem ask →
      EpaxosLength stem ask
  | commit {stem ask} (i : Epaxos.Instance) : InstFits i →
      BlobLength (putU8 4 ++ putInstance i) stem ask → EpaxosLength stem ask

/-- **Every length field of a frame fits**: wherever the frame begins with what stands before a
length field, and a length, the machine can serve what this length asks for. -/
def LengthsFit (k : ℕ) (L : LengthFields) (buf : Bytes) : Prop :=
  ∀ stem ask n, L stem ask → U64 n → stem ++ putU64 n <+: buf → machine k (ask n)

/-- A demand that a length field of the frame makes, and the machine refuses. -/
def Refused (k : ℕ) (buf : Bytes) (L : LengthFields) (d : Demand) : Prop :=
  ∃ stem ask n, L stem ask ∧ U64 n ∧ stem ++ putU64 n <+: buf ∧ d = ask n ∧ machine k d = false

lemma Refused.mono {k : ℕ} {buf : Bytes} {L L' : LengthFields} {d : Demand}
    (h : ∀ stem ask, L stem ask → L' stem ask) (hd : Refused k buf L d) : Refused k buf L' d := by
  obtain ⟨stem, ask, n, hL, hrest⟩ := hd
  exact ⟨stem, ask, n, h stem ask hL, hrest⟩

/-! ## What the decoders accept -/

section Spelling

variable {k : ℕ} {buf : Bytes}

/-- Spelling on the machine. -/
abbrev SpellsWire {α : Type} (k : ℕ) (buf : Bytes) (r : Cursor α) (fits : α → Prop)
    (word : α → Bytes) (L : Bytes → LengthFields) : Prop :=
  Spells (machine k) buf r fits word fun w => Refused k buf (L w)

/-- No length field. -/
def NoLength : Bytes → LengthFields := fun _ _ _ => False

lemma not_refused {w : Bytes} {d : Demand} {p : Prop} (h : Refused k buf (NoLength w) d) : p := by
  obtain ⟨_, _, _, hL, _⟩ := h
  exact hL.elim

lemma fromBeBytes_append (s : Bytes) (b : UInt8) :
    fromBeBytes (s ++ [b]) = fromBeBytes s * 256 + b.toNat := by
  simp [fromBeBytes]

lemma toBeBytes_fromBeBytes (s : Bytes) : toBeBytes s.length (fromBeBytes s) = s := by
  induction s using List.reverseRecOn with
  | nil => rfl
  | append_singleton s b ih =>
    have hb := b.toNat_lt
    have hdiv : (fromBeBytes s * 256 + b.toNat) / 256 = fromBeBytes s := by omega
    have hbyte : UInt8.ofNat (fromBeBytes s * 256 + b.toNat) = b := by
      apply UInt8.toNat_inj.mp
      simp only [UInt8.toNat_ofNat']
      omega
    rw [List.length_append, List.length_singleton, toBeBytes, fromBeBytes_append, hdiv, ih, hbyte]

lemma fromBeBytes_lt (s : Bytes) : fromBeBytes s < 256 ^ s.length := by
  induction s using List.reverseRecOn with
  | nil => simp [fromBeBytes]
  | append_singleton s b ih =>
    have hb := b.toNat_lt
    rw [fromBeBytes_append, List.length_append, List.length_singleton]
    omega

variable (hbuf : buf.length ≤ isizeMax)

include hbuf

lemma advance_met {w : Bytes} (hw : w <+: buf) {n : ℕ}
    (hn : n ≤ 8) : machine k (.advance (w.length + n)) = true := by
  have hle := hw.length_le
  simp only [machine, isizeMax, decide_eq_true_eq] at hbuf ⊢
  omega

lemma spells_u8 :
    SpellsWire k buf u8 (fun _ => True) putU8 NoLength := by
  intro w hw
  refine (Spells.item _).bind hw (fun d h => h.elim) fun b _ w1 hw1 e1 => ?_
  refine (Spells.request _).bind hw1 ?_ fun _ _ w2 hw2 e2 => ?_
  · rintro d ⟨rfl, hd⟩
    have hmet : machine k (.advance w1.length) = true := advance_met hbuf hw1 (Nat.zero_le 8)
    exact absurd hd (by simp only [hmet]; decide)
  · exact Spells.done hw2 trivial (by simp [e2, e1, putU8])

lemma spells_u64 :
    SpellsWire k buf u64 U64 putU64 NoLength := by
  intro w hw
  refine (Spells.slice _ _ _).bind hw ?_ fun s hs w1 hw1 e1 => ?_
  · rintro d ⟨rfl, hd⟩
    have hmet : machine k (.advance (w.length + 8)) = true := advance_met hbuf hw le_rfl
    exact absurd hd (by simp only [hmet]; decide)
  · have hback : putU64 (fromBeBytes s) = s := by
      have h := toBeBytes_fromBeBytes s
      rwa [hs] at h
    have hlt : U64 (fromBeBytes s) := by
      have h := fromBeBytes_lt s
      rwa [hs] at h
    exact Spells.done hw1 hlt (by rw [hback]; exact e1)

lemma spells_bytes :
    SpellsWire k buf bytes (fun b => U64 b.length) putBytes BlobLength := by
  intro w hw
  refine (spells_u64 hbuf).bind hw (fun d => not_refused) fun n hn w1 hw1 e1 => ?_
  have h := Spells.slice (M := machine k) (fun pos => .extent (pos + n)) n
    (⟨"eof bytes"⟩ : DecodeError) w1 hw1
  generalize Reader.slice _ n _ _ buf w1.length = o at h ⊢
  cases o with
  | ok b pos =>
    obtain ⟨rfl, hb, rfl⟩ := h
    subst e1
    exact ⟨hn, by simpa [putBytes] using hb, by simp [putBytes]⟩
  | err e => exact trivial
  | panic d =>
    obtain ⟨rfl, hd⟩ := h
    subst e1
    exact ⟨w, _, n, ⟨rfl, rfl⟩, hn, hw1, by simp, hd⟩

omit hbuf in
lemma spells_collect {ι : Type} {r : Cursor ι} {put : ι → Bytes} {fits : ι → Prop}
    {L : Bytes → LengthFields} (hr : SpellsWire k buf r fits put L) (n : ℕ) :
    Spells (machine k) buf (collect r n) (fun l => l.length = n ∧ ∀ i ∈ l, fits i)
      (fun l => (l.map put).flatten) fun w d => ∃ l : List ι, l.length < n ∧ (∀ i ∈ l, fits i) ∧
        Refused k buf (L (w ++ (l.map put).flatten)) d := by
  intro w hw
  have h := hr.loop n [] w hw
  unfold collect
  generalize Reader.loop _ n [] (machine k) buf w.length = o at h ⊢
  cases o with
  | ok v pos =>
    obtain ⟨l, rfl, hlen, hl, hspelt, rfl⟩ := h
    exact ⟨⟨hlen, hl⟩, hspelt, rfl⟩
  | err e => exact trivial
  | panic d =>
    obtain ⟨l, hlen, hl, _, hd⟩ := h
    exact ⟨l, hlen, hl, hd⟩

lemma spells_ids :
    SpellsWire k buf ids IdsFit putIds IdsLength := by
  intro w hw
  refine (spells_u64 hbuf).bind hw (fun d => not_refused) fun n hn w1 hw1 e1 => ?_
  refine (Spells.reserve (Demand.reserveIds n)).bind hw1 ?_ fun _ hsize w2 hw2 e2 => ?_
  · rintro d ⟨rfl, hd⟩
    exact ⟨w, _, n, ⟨rfl, rfl⟩, hn, e1 ▸ hw1, rfl, hd⟩
  · have h := spells_collect (spells_u64 (k := k) hbuf) n w2 hw2
    generalize collect u64 n _ buf w2.length = o at h ⊢
    cases o with
    | ok v pos =>
      obtain ⟨⟨rfl, hv⟩, hspelt, rfl⟩ := h
      subst e2 e1
      exact ⟨⟨hv, by simpa [machine] using hsize⟩, by simpa [putIds, putAll] using hspelt,
        by simp [putIds, putAll]⟩
    | err e => exact trivial
    | panic d =>
      obtain ⟨_, _, _, hd⟩ := h
      exact not_refused hd

lemma spells_conf :
    SpellsWire k buf conf ConfFits putConf ConfLength := by
  intro w hw
  refine (spells_u8 hbuf).bind hw (fun d => not_refused) fun tag _ w1 hw1 e1 => ?_
  rcases htag : tag.toNat with _ | _ | n
  · obtain rfl : tag = 0 := UInt8.toNat_inj.mp htag
    exact (spells_ids hbuf).map hw1 (fun d hd => hd.mono fun _ _ h => .simple (e1 ▸ h))
      (fun v hv => hv) fun v => by simp [e1, putConf]
  · obtain rfl : tag = 1 := UInt8.toNat_inj.mp htag
    refine (spells_ids hbuf).bind hw1 (fun d hd => hd.mono fun _ _ h => .old (e1 ▸ h))
      fun old hold w2 hw2 e2 => ?_
    subst e1
    exact (spells_ids hbuf).map hw2 (fun d hd => hd.mono fun _ _ h => .new old hold (e2 ▸ h))
      (fun new hnew => ⟨hold, hnew⟩) fun new => by simp [e2, putConf]
  · exact trivial

lemma spells_payload {w : Bytes} {term index : ℕ}
    (hterm : U64 term) (hindex : U64 index) {w1 : Bytes} (hw1 : w1 <+: buf)
    (e1 : w1 = w ++ putU64 term ++ putU64 index) :
    Ends (payload (machine k) buf w1.length)
      (fun p pos => PayloadFits p ∧ w1 ++ putPayload p <+: buf ∧
        pos = (w1 ++ putPayload p).length)
      (Refused k buf (EntryLength w)) := by
  refine (spells_u8 hbuf).bind hw1 (fun d => not_refused) fun tag _ w2 hw2 e2 => ?_
  subst e1
  rcases htag : tag.toNat with _ | _ | _ | n
  · obtain rfl : tag = 0 := UInt8.toNat_inj.mp htag
    exact (spells_bytes hbuf).map hw2
      (fun d hd => hd.mono fun _ _ h => .command term index hterm hindex (e2 ▸ h))
      (fun c hc => hc) fun c => by simp [e2, putPayload]
  · obtain rfl : tag = 1 := UInt8.toNat_inj.mp htag
    exact Spells.done hw2 trivial (by simp [e2, putPayload])
  · obtain rfl : tag = 2 := UInt8.toNat_inj.mp htag
    exact (spells_conf hbuf).map hw2
      (fun d hd => hd.mono fun _ _ h => .config term index hterm hindex (e2 ▸ h))
      (fun c hc => hc) fun c => by simp [e2, putPayload]
  · exact trivial

lemma spells_entry :
    SpellsWire k buf entry EntryFits putEntry EntryLength := by
  intro w hw
  refine (spells_u64 hbuf).bind hw (fun d => not_refused) fun term hterm w1 hw1 e1 => ?_
  refine (spells_u64 hbuf).bind hw1 (fun d => not_refused) fun index hindex w2 hw2 e2 => ?_
  subst e1
  have hpayload := spells_payload (k := k) hbuf hterm hindex hw2 e2
  rw [Reader.bind_run]
  generalize payload (machine k) buf _ = o at hpayload ⊢
  cases o with
  | ok p pos =>
    obtain ⟨hp, hspelt, rfl⟩ := hpayload
    subst e2
    exact ⟨⟨hterm, hindex, hp⟩, by simpa [putEntry] using hspelt, by simp [putEntry]⟩
  | err e => exact trivial
  | panic d => exact hpayload

lemma spells_header {γ : Type} {tag : UInt8} {w : Bytes}
    (hw : w <+: buf) (hhead : w = putU8 tag) {f : ℕ → ℕ → ℕ → ℕ → Cursor γ} {Q : γ → ℕ → Prop}
    {P : Demand → Prop}
    (hf : ∀ a b c d, U64 a → U64 b → U64 c → U64 d → ∀ w', w' <+: buf → w' = header tag a b c d →
      Ends (f a b c d (machine k) buf w'.length) Q P) :
    Ends ((do
      let a ← u64
      let b ← u64
      let c ← u64
      let d ← u64
      f a b c d : Cursor γ) (machine k) buf w.length) Q P := by
  refine (spells_u64 hbuf).bind hw (fun d => not_refused) fun a ha w1 hw1 e1 => ?_
  refine (spells_u64 hbuf).bind hw1 (fun d => not_refused) fun b hb w2 hw2 e2 => ?_
  refine (spells_u64 hbuf).bind hw2 (fun d => not_refused) fun c hc w3 hw3 e3 => ?_
  refine (spells_u64 hbuf).bind hw3 (fun d => not_refused) fun d hd w4 hw4 e4 => ?_
  exact hf a b c d ha hb hc hd w4 hw4 (by rw [e4, e3, e2, e1, hhead]; rfl)

/-! ## What makes the decoders break down -/

lemma quiet_u8 : Quiet (machine k) buf u8 :=
  (spells_u8 hbuf).quiet fun _ _ => not_refused

lemma quiet_u64 : Quiet (machine k) buf u64 :=
  (spells_u64 hbuf).quiet fun _ _ => not_refused

lemma quiet_bool : Quiet (machine k) buf bool :=
  (quiet_u8 hbuf).bind fun _ => Quiet.pure _

lemma spells_inst :
    SpellsWire k buf inst InstFits putInstance NoLength := by
  intro w hw
  refine (spells_u64 hbuf).bind hw (fun d => not_refused) fun replica hreplica w1 hw1 e1 => ?_
  exact (spells_u64 hbuf).map hw1 (fun d => not_refused) (fun slot hslot => ⟨hreplica, hslot⟩)
    fun slot => by simp [e1, putInstance]

lemma quiet_instSet : Quiet (machine k) buf instSet :=
  (quiet_u64 hbuf).bind fun n => Quiet.loop (fun _ =>
    ((spells_inst hbuf).quiet fun _ _ => not_refused).bind fun _ => Quiet.pure _) n _

/-- The entries of an `AppendEntries`: the announced length, or a length field of an entry after
some entries, is refused. -/
lemma ends_entries {term leader prevLogIndex prevLogTerm : ℕ}
    (hterm : U64 term) (hleader : U64 leader) (hindex : U64 prevLogIndex)
    (hprev : U64 prevLogTerm) {w : Bytes} (hw : w <+: buf)
    (hhead : w = header 2 term leader prevLogIndex prevLogTerm) :
    Ends (entries (machine k) buf w.length) (fun _ pos => ∃ w', w' <+: buf ∧ pos = w'.length)
      (Refused k buf MessageLength) := by
  refine (spells_u64 hbuf).bind hw (fun d => not_refused) fun n hn w1 hw1 e1 => ?_
  refine (Spells.reserve (Demand.reserveEntries n)).bind hw1 ?_ fun _ _ w2 hw2 e2 => ?_
  · rintro d ⟨rfl, hd⟩
    subst e1 hhead
    exact ⟨_, _, n, .entries term leader prevLogIndex prevLogTerm hterm hleader hindex hprev rfl,
      hn, hw1, rfl, hd⟩
  · have h := spells_collect (spells_entry (k := k) hbuf) n w2 hw2
    generalize collect entry n _ buf w2.length = o at h ⊢
    cases o with
    | ok v pos => exact ⟨_, h.2.1, h.2.2⟩
    | err e => exact trivial
    | panic d =>
      obtain ⟨es, hlen, hes, hd⟩ := h
      obtain rfl : w2 = header 2 term leader prevLogIndex prevLogTerm ++ putU64 n := by
        rw [e2, e1, hhead, List.append_nil]
      exact hd.mono fun _ _ => .entry term leader prevLogIndex prevLogTerm n es hterm hleader
        hindex hprev hn hlen hes

/-- **A Raft frame that breaks the decoder down** has a length field that does not fit. -/
lemma ends_message :
    Ends (decode (machine k) buf) (fun _ _ => True) (Refused k buf MessageLength) := by
  have hword : Quiet (machine k) buf u64 := quiet_u64 hbuf
  refine (spells_u8 hbuf).bind List.nil_prefix (fun d => not_refused) fun tag _ w1 hw1 e1 => ?_
  rcases htag : tag.toNat with _ | _ | _ | _ | _ | n
  · exact Quiet.ends (hword.bind fun _ => hword.bind fun _ => hword.bind fun _ =>
      hword.bind fun _ => Quiet.pure _) hw1
  · exact Quiet.ends (hword.bind fun _ => (quiet_bool hbuf).bind fun _ => Quiet.pure _) hw1
  · obtain rfl : tag = 2 := UInt8.toNat_inj.mp htag
    refine spells_header hbuf hw1 e1 fun term leader index prev hterm hleader hindex hprev w hw
      hhead => ?_
    have h := ends_entries (k := k) hbuf hterm hleader hindex hprev hw hhead
    rw [Reader.bind_run]
    generalize entries (machine k) buf w.length = o at h ⊢
    cases o with
    | ok es pos =>
      obtain ⟨w', hw', rfl⟩ := h
      exact Quiet.ends (hword.bind fun _ => hword.bind fun _ => Quiet.pure _) hw'
    | err e => exact trivial
    | panic d => exact h
  · exact Quiet.ends (hword.bind fun _ => (quiet_bool hbuf).bind fun _ => hword.bind fun _ =>
      hword.bind fun _ => hword.bind fun _ => Quiet.pure _) hw1
  · obtain rfl : tag = 4 := UInt8.toNat_inj.mp htag
    refine spells_header hbuf hw1 e1 fun term leader index last hterm hleader hindex hlast w hw
      hhead => ?_
    refine (spells_conf hbuf).bind hw (fun d hd => hd.mono fun _ _ h =>
      .config term leader index last hterm hleader hindex hlast (hhead ▸ h))
      fun c hc w2 hw2 e2 => ?_
    refine (spells_bytes hbuf).bind hw2 (fun d hd => hd.mono fun _ _ h =>
      .data term leader index last c hterm hleader hindex hlast hc (hhead ▸ e2 ▸ h))
      fun data _ w3 hw3 _ => ?_
    exact Quiet.ends (hword.bind fun _ => Quiet.pure _) hw3
  · exact trivial

/-- **An EPaxos frame that breaks the decoder down** has a length field that does not fit. -/
lemma ends_epaxosMessage :
    Ends (decodeEpaxos (machine k) buf) (fun _ _ => True) (Refused k buf EpaxosLength) := by
  have hword : Quiet (machine k) buf u64 := quiet_u64 hbuf
  have htail : ∀ (w : Bytes), w <+: buf → ∀ f : ℕ → Epaxos.Deps → Epaxos.Message,
      Ends ((do let seq ← u64; let deps ← instSet; pure (f seq deps) :
        Cursor Epaxos.Message) (machine k) buf w.length) (fun _ _ => True)
        (Refused k buf EpaxosLength) := fun w hw f =>
    Quiet.ends (hword.bind fun _ => (quiet_instSet hbuf).bind fun _ => Quiet.pure _) hw
  -- the two proposals have the same layout
  have hproposal : ∀ (tag : UInt8) (w : Bytes), tag = 0 ∨ tag = 2 → w <+: buf → w = putU8 tag →
      ∀ f : Epaxos.Instance → ℕ → Bytes → ℕ → Epaxos.Deps → Epaxos.Message,
      Ends ((do
        let i ← inst
        let ballot ← u64
        let command ← bytes
        let seq ← u64
        let deps ← instSet
        pure (f i ballot command seq deps) : Cursor Epaxos.Message) (machine k) buf w.length)
        (fun _ _ => True) (Refused k buf EpaxosLength) := by
    intro tag w htag hw hhead f
    refine (spells_inst hbuf).bind hw (fun d => not_refused) fun i hi w1 hw1 e1 => ?_
    refine (spells_u64 hbuf).bind hw1 (fun d => not_refused) fun ballot hballot w2 hw2 e2 => ?_
    subst e1 hhead
    refine (spells_bytes hbuf).bind hw2 (fun d hd => hd.mono fun _ _ h =>
      .proposal tag i ballot htag hi hballot (e2 ▸ h)) fun command _ w3 hw3 _ => ?_
    exact htail w3 hw3 _
  refine (spells_u8 hbuf).bind List.nil_prefix (fun d => not_refused) fun tag _ w1 hw1 e1 => ?_
  rcases htag : tag.toNat with _ | _ | _ | _ | _ | n
  · obtain rfl : tag = 0 := UInt8.toNat_inj.mp htag
    exact hproposal 0 w1 (.inl rfl) hw1 e1 _
  · exact Quiet.ends (((spells_inst hbuf).quiet fun _ _ => not_refused).bind fun _ =>
      hword.bind fun _ => hword.bind fun _ => (quiet_instSet hbuf).bind fun _ => Quiet.pure _) hw1
  · obtain rfl : tag = 2 := UInt8.toNat_inj.mp htag
    exact hproposal 2 w1 (.inr rfl) hw1 e1 _
  · exact Quiet.ends (((spells_inst hbuf).quiet fun _ _ => not_refused).bind fun _ =>
      hword.bind fun _ => Quiet.pure _) hw1
  · obtain rfl : tag = 4 := UInt8.toNat_inj.mp htag
    refine (spells_inst hbuf).bind hw1 (fun d => not_refused) fun i hi w2 hw2 e2 => ?_
    obtain rfl : w1 = putU8 4 := e1
    refine (spells_bytes hbuf).bind hw2 (fun d hd => hd.mono fun _ _ h =>
      .commit i hi (e2 ▸ h)) fun command _ w3 hw3 _ => ?_
    exact htail w3 hw3 _
  · exact trivial

end Spelling

/-! ## What a length that does not fit does -/

section Breaking

variable {k : ℕ} {buf : Bytes} {stem : Bytes} {ask : ℕ → Demand} {n : ℕ}

/-- A reader breaks down after the bytes `w` of the frame. -/
def Breaks {α : Type} (k : ℕ) (buf : Bytes) (r : Cursor α) (w : Bytes) : Prop :=
  w <+: buf ∧ ∃ d, r (machine k) buf w.length = .panic d

lemma Breaks.here {α γ : Type} {r : Cursor α} {f : α → Cursor γ} {w : Bytes}
    (h : Breaks k buf r w) : Breaks k buf (r >>= f) w := by
  obtain ⟨hw, d, hd⟩ := h
  exact ⟨hw, d, by rw [Reader.bind_run, hd]⟩

lemma Breaks.after {α γ : Type} {r : Cursor α} {f : α → Cursor γ} {w x : Bytes} {a : α}
    (hbuf : buf.length ≤ isizeMax) (hr : ReadsWire k r x a) (h : Breaks k buf (f a) (w ++ x)) :
    Breaks k buf (r >>= f) w := by
  obtain ⟨⟨rest, rfl⟩, d, hd⟩ := h
  simp only [List.length_append] at hbuf
  have hread := hr.whole w rest (by omega)
  refine ⟨⟨x ++ rest, by simp⟩, d, ?_⟩
  rw [List.append_assoc] at hd ⊢
  rw [Reader.bind_ok hread, ← List.length_append]
  exact hd

lemma breaks_request {d : Demand} {w : Bytes} {ask : ℕ → Demand} (hw : w <+: buf)
    (hask : ask w.length = d) (hd : machine k d = false) :
    Breaks k buf (Reader.request ask) w :=
  ⟨hw, d, by simp [Reader.request, hask, hd]⟩

variable (hbuf : buf.length ≤ isizeMax) (hn : U64 n) (hstem : stem ++ putU64 n <+: buf)
  (hd : machine k (ask n) = false)

include hbuf hn hstem hd

open Breaks

lemma breaks_bytes {w : Bytes} (hL : BlobLength w stem ask) : Breaks k buf bytes w := by
  obtain ⟨rfl, rfl⟩ := hL
  have hrequest : Breaks k buf (Reader.request fun pos => .extent (pos + n)) (stem ++ putU64 n) :=
    breaks_request hstem (by simp) hd
  exact after hbuf (reads_u64 hn) hrequest.here

lemma breaks_ids {w : Bytes} (hL : IdsLength w stem ask) : Breaks k buf ids w := by
  obtain ⟨rfl, rfl⟩ := hL
  have hrequest : Breaks k buf (Reader.request fun _ => .reserveIds n) (stem ++ putU64 n) :=
    breaks_request hstem rfl hd
  exact after hbuf (reads_u64 hn) hrequest.here

lemma breaks_conf {w : Bytes} (hL : ConfLength w stem ask) : Breaks k buf conf w := by
  cases hL with
  | simple h => exact after hbuf (reads_u8 0) (breaks_ids hbuf hn hstem hd h).here
  | old h => exact after hbuf (reads_u8 1) (breaks_ids hbuf hn hstem hd h).here
  | new old hold h =>
    exact after hbuf (reads_u8 1)
      (after hbuf (reads_ids hold) (breaks_ids hbuf hn hstem hd h).here)

lemma breaks_entry {w : Bytes} (hL : EntryLength w stem ask) : Breaks k buf entry w := by
  cases hL with
  | command term index hterm hindex h =>
    have hpayload : Breaks k buf payload (w ++ putU64 term ++ putU64 index) :=
      after hbuf (reads_u8 0) (breaks_bytes hbuf hn hstem hd h).here
    exact after hbuf (reads_u64 hterm) (after hbuf (reads_u64 hindex) hpayload.here)
  | config term index hterm hindex h =>
    have hpayload : Breaks k buf payload (w ++ putU64 term ++ putU64 index) :=
      after hbuf (reads_u8 2) (breaks_conf hbuf hn hstem hd h).here
    exact after hbuf (reads_u64 hterm) (after hbuf (reads_u64 hindex) hpayload.here)

omit hn hstem hd in
lemma breaks_loop {ι : Type} {r : Cursor ι} {put : ι → Bytes} :
    ∀ (l : List ι) (n : ℕ) (v : List ι) (w : Bytes), l.length < n →
      (∀ i ∈ l, ReadsWire k r (put i) i) → Breaks k buf r (w ++ (l.map put).flatten) →
      Breaks k buf (Reader.loop (fun v => do let a ← r; pure (v ++ [a])) n v) w
  | _, 0, _, _, hlen, _, _ => absurd hlen (Nat.not_lt_zero _)
  | [], n + 1, v, w, _, _, hbreak => by
    have hstep : Breaks k buf (do let a ← r; pure (v ++ [a])) w :=
      here (by simpa using hbreak)
    exact hstep.here
  | i :: l, n + 1, v, w, hlen, hl, hbreak => by
    have hrest := breaks_loop l n (v ++ [i]) (w ++ put i) (by simpa using hlen)
      (fun j hj => hl j (by simp [hj])) (by simpa using hbreak)
    exact after hbuf ((hl i (by simp)).map fun a => v ++ [a]) hrest

omit hn hstem hd in
lemma breaks_header {γ : Type} {tag : UInt8} {a b c d : ℕ}
    (ha : U64 a) (hb : U64 b) (hc : U64 c) (hd : U64 d) {f : ℕ → ℕ → ℕ → ℕ → Cursor γ}
    (h : Breaks k buf (f a b c d) (header tag a b c d)) :
    Breaks k buf (do
      let a ← u64
      let b ← u64
      let c ← u64
      let d ← u64
      f a b c d) (putU8 tag) :=
  after hbuf (reads_u64 ha) (after hbuf (reads_u64 hb)
    (after hbuf (reads_u64 hc) (after hbuf (reads_u64 hd) h)))

omit hn hstem hd in
/-- The entries of an `AppendEntries` break down on a length field of an entry; where the announced
length is refused already, on this one. -/
lemma breaks_entries {w : Bytes} {count : ℕ} {es : List Entry}
    (hcount : U64 count) (hlen : es.length < count) (hes : ∀ e ∈ es, EntryFits e)
    (h : Breaks k buf entry (w ++ putU64 count ++ (es.map putEntry).flatten)) :
    Breaks k buf entries w := by
  have hw : w ++ putU64 count <+: buf := (List.prefix_append _ _).trans h.1
  refine after hbuf (reads_u64 hcount) ?_
  cases hreserve : machine k (.reserveEntries count) with
  | false => exact (breaks_request hw rfl hreserve).here
  | true =>
    have hloop : Breaks k buf (collect entry count) (w ++ putU64 count ++ []) := by
      rw [List.append_nil]
      exact breaks_loop hbuf es count [] _ hlen (fun e he => reads_entry (hes e he)) h
    exact after hbuf (reads_reserve hreserve) hloop

lemma breaks_message (hL : MessageLength stem ask) : Breaks k buf message [] := by
  cases hL with
  | entries term leader index prev hterm hleader hindex hprev hask =>
    subst hask
    have hentries : Breaks k buf entries (header 2 term leader index prev) :=
      after hbuf (reads_u64 hn) (breaks_request hstem rfl hd).here
    exact after hbuf (reads_u8 2)
      (breaks_header hbuf hterm hleader hindex hprev hentries.here)
  | entry term leader index prev count es hterm hleader hindex hprev hcount hlen hes h =>
    have hentries := breaks_entries hbuf hcount hlen hes (breaks_entry hbuf hn hstem hd h)
    exact after hbuf (reads_u8 2)
      (breaks_header hbuf hterm hleader hindex hprev hentries.here)
  | config term leader index last hterm hleader hindex hlast h =>
    exact after hbuf (reads_u8 4)
      (breaks_header hbuf hterm hleader hindex hlast (breaks_conf hbuf hn hstem hd h).here)
  | data term leader index last c hterm hleader hindex hlast hc h =>
    exact after hbuf (reads_u8 4) (breaks_header hbuf hterm hleader hindex hlast
      (after hbuf (reads_conf hc) (breaks_bytes hbuf hn hstem hd h).here))

lemma breaks_epaxosMessage (hL : EpaxosLength stem ask) :
    Breaks k buf epaxosMessage [] := by
  cases hL with
  | proposal tag i ballot htag hi hballot h =>
    rcases htag with rfl | rfl
    · exact after hbuf (reads_u8 0) (after hbuf (reads_inst hi)
        (after hbuf (reads_u64 hballot) (breaks_bytes hbuf hn hstem hd h).here))
    · exact after hbuf (reads_u8 2) (after hbuf (reads_inst hi)
        (after hbuf (reads_u64 hballot) (breaks_bytes hbuf hn hstem hd h).here))
  | commit i hi h =>
    exact after hbuf (reads_u8 4) (after hbuf (reads_inst hi)
      (breaks_bytes hbuf hn hstem hd h).here)

omit hbuf hn hstem hd in
lemma total_iff {α : Type} {r : Cursor α} {L : LengthFields}
    (hends : Ends (r (machine k) buf 0) (fun _ _ => True) (Refused k buf L))
    (hbreaks : ∀ stem ask n, U64 n → stem ++ putU64 n <+: buf → machine k (ask n) = false →
      L stem ask → Breaks k buf r []) :
    (∀ d, r (machine k) buf 0 ≠ .panic d) ↔ LengthsFit k L buf := by
  constructor
  · intro hsafe stem ask n hL hn hstem
    by_contra hd
    obtain ⟨_, d, hpanic⟩ := hbreaks stem ask n hn hstem (by simpa using hd) hL
    exact hsafe d hpanic
  · intro hfit d hpanic
    rw [hpanic] at hends
    obtain ⟨stem, ask, n, hL, hn, hstem, rfl, hd⟩ := hends
    have hmet := hfit stem ask n hL hn hstem
    rw [hd] at hmet
    exact absurd hmet (by simp)

end Breaking

/-- The frame of an `InstallSnapshot` whose membership announces `2 ^ 61` voters. -/
def hostileSnapshot : Bytes := header 4 1 0 0 0 ++ putU8 0 ++ putU64 (2 ^ 61)

/-- An entry whose command announces `2 ^ 64 - 1` bytes. -/
def hostileEntry : Bytes := putU64 1 ++ putU64 1 ++ putU8 0 ++ putU64 (2 ^ 64 - 1)

/-- An EPaxos `Commit` whose command announces `2 ^ 64 - 1` bytes. -/
def hostileCommit : Bytes := putU8 4 ++ putInstance ⟨0, 0⟩ ++ putU64 (2 ^ 64 - 1)

end CrabScheme.Codec
