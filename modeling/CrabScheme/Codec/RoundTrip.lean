import CrabScheme.Codec.Wire

/-!
# Round trips of the consensus codec

Every reader of the codec reads the word its writer produces, in the sense of `Reader.Reads`: on the
word, whatever follows it, it gives the value back and stops after the word; on a proper beginning of
the word it fails. A message is one that a program can hold: its numbers are `u64` values and its
vectors fit in memory.

## Main results

* `codecs_round_trip`.
-/

namespace CrabScheme.Codec

open Raft (ReplicaId Bytes ConfState EntryPayload Entry)
open Reader (Reads)

/-! ## Values that fit -/

/-- A `u64`. -/
def U64 (n : ℕ) : Prop := n < 2 ^ 64

instance (n : ℕ) : Decidable (U64 n) := inferInstanceAs (Decidable (n < 2 ^ 64))

/-- A `Vec` of replica ids. -/
structure IdsFit (ids : List ReplicaId) : Prop where
  items : ∀ i ∈ ids, U64 i
  size : ids.length * 8 ≤ isizeMax

/-- A membership that fits. -/
def ConfFits : ConfState → Prop
  | .simple v => IdsFit v
  | .joint old new => IdsFit old ∧ IdsFit new

/-- A payload that fits. -/
def PayloadFits : EntryPayload → Prop
  | .command c => U64 c.length
  | .noop => True
  | .config c => ConfFits c

/-- An entry that fits. -/
structure EntryFits (e : Entry) : Prop where
  term : U64 e.term
  index : U64 e.index
  payload : PayloadFits e.payload

/-- A `Vec` of entries. -/
structure EntriesFit (entrySize : ℕ) (es : List Entry) : Prop where
  items : ∀ e ∈ es, EntryFits e
  length : U64 es.length
  size : es.length * entrySize ≤ isizeMax

/-- **A Raft message that fits.** -/
def MessageFits (entrySize : ℕ) : Raft.Message → Prop
  | .requestVote term candidate lastLogIndex lastLogTerm =>
    U64 term ∧ U64 candidate ∧ U64 lastLogIndex ∧ U64 lastLogTerm
  | .requestVoteResp term _ => U64 term
  | .appendEntries term leader prevLogIndex prevLogTerm entries leaderCommit readSeq =>
    U64 term ∧ U64 leader ∧ U64 prevLogIndex ∧ U64 prevLogTerm ∧ EntriesFit entrySize entries ∧
      U64 leaderCommit ∧ U64 readSeq
  | .appendEntriesResp term _ matchIndex conflictIndex readSeq =>
    U64 term ∧ U64 matchIndex ∧ U64 conflictIndex ∧ U64 readSeq
  | .installSnapshot term leader lastIncludedIndex lastIncludedTerm lastIncludedConfig data
      readSeq =>
    U64 term ∧ U64 leader ∧ U64 lastIncludedIndex ∧ U64 lastIncludedTerm ∧
      ConfFits lastIncludedConfig ∧ U64 data.length ∧ U64 readSeq

/-- An instance that fits. -/
def InstFits (i : Epaxos.Instance) : Prop := U64 i.replica ∧ U64 i.slot

/-- A set of instances that fits. -/
structure DepsFit (deps : Epaxos.Deps) : Prop where
  items : ∀ i ∈ deps.elems, InstFits i
  length : U64 deps.elems.length

/-- **An EPaxos message that fits.** -/
def EpaxosFits : Epaxos.Message → Prop
  | .preAccept inst ballot command seq deps | .accept inst ballot command seq deps =>
    InstFits inst ∧ U64 ballot ∧ U64 command.length ∧ U64 seq ∧ DepsFit deps
  | .preAcceptReply inst ballot seq deps => InstFits inst ∧ U64 ballot ∧ U64 seq ∧ DepsFit deps
  | .acceptReply inst ballot => InstFits inst ∧ U64 ballot
  | .commit inst command seq deps => InstFits inst ∧ U64 command.length ∧ U64 seq ∧ DepsFit deps

/-! ## Numbers -/

@[simp] lemma length_toBeBytes (width n : ℕ) : (toBeBytes width n).length = width := by
  induction width generalizing n with
  | zero => rfl
  | succ width ih => simp [toBeBytes, ih]

@[simp] lemma length_putU64 (n : ℕ) : (putU64 n).length = 8 := length_toBeBytes 8 n

/-- **Big-endian bytes spell the number they come from.** -/
lemma fromBeBytes_toBeBytes (width n : ℕ) (h : n < 256 ^ width) :
    fromBeBytes (toBeBytes width n) = n := by
  induction width generalizing n with
  | zero =>
    have hn : n = 0 := by simpa using h
    subst hn
    rfl
  | succ width ih =>
    have hn : n / 256 < 256 ^ width := by
      rw [Nat.div_lt_iff_lt_mul (by decide)]
      simpa [Nat.pow_succ] using h
    have hrest := ih (n / 256) hn
    unfold fromBeBytes at hrest ⊢
    rw [toBeBytes, List.foldl_append, hrest]
    simp [Nat.div_add_mod' n 256]

/-! ## Readers of the codec -/

section Readers

variable {k : ℕ}

/-- Reading on the machine, within the bounds of an allocation. -/
abbrev ReadsWire {α : Type} (k : ℕ) (r : Cursor α) (w : Bytes) (a : α) : Prop :=
  Reads (machine k) isizeMax r w a

lemma reads_u8 (v : UInt8) : ReadsWire k Cursor.u8 (putU8 v) v := by
  have hrequest : ReadsWire k (Reader.request .advance) [] () :=
    Reads.request fun pos hpos => by simp [machine, isizeMax] at hpos ⊢; omega
  exact (Reads.item _ v).bind (hrequest.bind (Reads.pure v))

lemma reads_u64 {n : ℕ} (h : U64 n) : ReadsWire k Cursor.u64 (putU64 n) n := by
  have hslice : ReadsWire k (Reader.slice (fun pos => .advance (pos + 8)) 8 ⟨"eof u64"⟩)
      (putU64 n) (putU64 n) :=
    Reads.slice _ (length_putU64 n) fun pos hpos => by simp [machine, isizeMax] at hpos ⊢; omega
  have hmap := hslice.map fromBeBytes
  rwa [putU64, fromBeBytes_toBeBytes 8 n (by simpa [U64] using h)] at hmap

lemma reads_bool (b : Bool) : ReadsWire k Cursor.bool (putBool b) b := by
  have hmap := (reads_u8 (k := k) (if b then 1 else 0)).map (· != 0)
  cases b <;> exact hmap

lemma reads_bytes {b : Bytes} (h : U64 b.length) : ReadsWire k Cursor.bytes (putBytes b) b :=
  (reads_u64 h).bind <|
    Reads.slice _ rfl fun pos hpos => by simp [machine, isizeMax] at hpos ⊢; omega

/-- **A counted run** is read by a loop that pushes its items. -/
lemma reads_collect {ι : Type} {r : Cursor ι} {put : ι → Bytes} {items : List ι}
    (h : ∀ i ∈ items, ReadsWire k r (put i) i) :
    ReadsWire k (Cursor.collect r items.length) (items.map put).flatten items := by
  have hpush : ∀ i ∈ items, ∀ v : List ι,
      ReadsWire k (do let a ← r; pure (v ++ [a])) (put i) (v ++ [i]) :=
    fun i hi v => (h i hi).map fun a => v ++ [a]
  have hloop := Reads.loop put (fun v i => v ++ [i]) items [] hpush
  have hfold : ∀ (l v : List ι), l.foldl (fun v i => v ++ [i]) v = v ++ l := by
    intro l
    induction l with
    | nil => simp
    | cons i l ih => simp [ih]
  rwa [hfold, List.nil_append] at hloop

lemma reads_reserve {d : Demand} (h : machine k d) :
    ReadsWire k (Reader.request fun _ => d) [] () :=
  Reads.request fun _ _ => h

lemma reads_ids {ids : List ReplicaId} (h : IdsFit ids) :
    ReadsWire k Cursor.ids (putIds ids) ids := by
  have hlength : U64 ids.length := by
    have hsize := h.size
    simp only [U64, isizeMax] at hsize ⊢
    omega
  have hreserve : machine k (.reserveIds ids.length) := by simpa [machine] using h.size
  exact (reads_u64 hlength).bind ((reads_reserve hreserve).bind
    (reads_collect fun i hi => reads_u64 (h.items i hi)))

lemma reads_conf {c : ConfState} (h : ConfFits c) : ReadsWire k Cursor.conf (putConf c) c := by
  cases c with
  | simple v => exact (reads_u8 0).bind ((reads_ids h).map ConfState.simple)
  | joint old new =>
    exact (reads_u8 1).bind ((reads_ids h.1).bind ((reads_ids h.2).map (ConfState.joint old)))

lemma reads_payload {p : EntryPayload} (h : PayloadFits p) :
    ReadsWire k Cursor.payload (putPayload p) p := by
  cases p with
  | command c => exact (reads_u8 0).bind ((reads_bytes h).map EntryPayload.command)
  | noop => exact (reads_u8 1).bind (Reads.pure EntryPayload.noop)
  | config c => exact (reads_u8 2).bind ((reads_conf h).map EntryPayload.config)

lemma reads_entry {e : Entry} (h : EntryFits e) : ReadsWire k Cursor.entry (putEntry e) e :=
  (reads_u64 h.term).bind ((reads_u64 h.index).bind
    ((reads_payload h.payload).map (Entry.mk e.term e.index)))

lemma reads_entries {es : List Entry} (h : EntriesFit k es) :
    ReadsWire k Cursor.entries (putAll putEntry es) es := by
  have hreserve : machine k (.reserveEntries es.length) := by simpa [machine] using h.size
  exact (reads_u64 h.length).bind ((reads_reserve hreserve).bind
    (reads_collect fun e he => reads_entry (h.items e he)))

/-- **Raft messages.** -/
lemma reads_message {m : Raft.Message} (h : MessageFits k m) :
    ReadsWire k Cursor.message (encode m) m := by
  cases m with
  | requestVote term candidate lastLogIndex lastLogTerm =>
    obtain ⟨hterm, hcandidate, hindex, hlast⟩ := h
    exact (reads_u8 0).bind ((reads_u64 hterm).bind ((reads_u64 hcandidate).bind
      ((reads_u64 hindex).bind ((reads_u64 hlast).map _))))
  | requestVoteResp term granted =>
    exact (reads_u8 1).bind ((reads_u64 h).bind ((reads_bool granted).map _))
  | appendEntries term leader prevLogIndex prevLogTerm entries leaderCommit readSeq =>
    obtain ⟨hterm, hleader, hindex, hprev, hentries, hcommit, hseq⟩ := h
    exact (reads_u8 2).bind ((reads_u64 hterm).bind ((reads_u64 hleader).bind
      ((reads_u64 hindex).bind ((reads_u64 hprev).bind ((reads_entries hentries).bind
        ((reads_u64 hcommit).bind ((reads_u64 hseq).map _)))))))
  | appendEntriesResp term success matchIndex conflictIndex readSeq =>
    obtain ⟨hterm, hmatch, hconflict, hseq⟩ := h
    exact (reads_u8 3).bind ((reads_u64 hterm).bind ((reads_bool success).bind
      ((reads_u64 hmatch).bind ((reads_u64 hconflict).bind ((reads_u64 hseq).map _)))))
  | installSnapshot term leader lastIncludedIndex lastIncludedTerm config data readSeq =>
    obtain ⟨hterm, hleader, hindex, hlast, hconf, hdata, hseq⟩ := h
    exact (reads_u8 4).bind ((reads_u64 hterm).bind ((reads_u64 hleader).bind
      ((reads_u64 hindex).bind ((reads_u64 hlast).bind ((reads_conf hconf).bind
        ((reads_bytes hdata).bind ((reads_u64 hseq).map _)))))))

lemma reads_inst {i : Epaxos.Instance} (h : InstFits i) :
    ReadsWire k Cursor.inst (putInstance i) i :=
  (reads_u64 h.1).bind ((reads_u64 h.2).map (Epaxos.Instance.mk i.replica))

lemma reads_instSet {deps : Epaxos.Deps} (h : DepsFit deps) :
    ReadsWire k Cursor.instSet (putInstSet deps) deps := by
  have hinsert : ∀ i ∈ deps.elems, ∀ s : Epaxos.Deps,
      ReadsWire k (do let i ← Cursor.inst; pure (s.insert i)) (putInstance i) (s.insert i) :=
    fun i hi s => (reads_inst (h.items i hi)).map s.insert
  have hloop := Reads.loop putInstance SortedSet.insert deps.elems .empty hinsert
  rw [SortedSet.foldl_insert_elems] at hloop
  exact (reads_u64 h.length).bind hloop

/-- **EPaxos messages.** -/
lemma reads_epaxosMessage {m : Epaxos.Message} (h : EpaxosFits m) :
    ReadsWire k Cursor.epaxosMessage (encodeEpaxos m) m := by
  cases m with
  | preAccept inst ballot command seq deps =>
    obtain ⟨hinst, hballot, hcommand, hseq, hdeps⟩ := h
    exact (reads_u8 0).bind ((reads_inst hinst).bind ((reads_u64 hballot).bind
      ((reads_bytes hcommand).bind ((reads_u64 hseq).bind ((reads_instSet hdeps).map _)))))
  | preAcceptReply inst ballot seq deps =>
    obtain ⟨hinst, hballot, hseq, hdeps⟩ := h
    exact (reads_u8 1).bind ((reads_inst hinst).bind ((reads_u64 hballot).bind
      ((reads_u64 hseq).bind ((reads_instSet hdeps).map _))))
  | accept inst ballot command seq deps =>
    obtain ⟨hinst, hballot, hcommand, hseq, hdeps⟩ := h
    exact (reads_u8 2).bind ((reads_inst hinst).bind ((reads_u64 hballot).bind
      ((reads_bytes hcommand).bind ((reads_u64 hseq).bind ((reads_instSet hdeps).map _)))))
  | acceptReply inst ballot =>
    exact (reads_u8 3).bind ((reads_inst h.1).bind ((reads_u64 h.2).map _))
  | commit inst command seq deps =>
    obtain ⟨hinst, hcommand, hseq, hdeps⟩ := h
    exact (reads_u8 4).bind ((reads_inst hinst).bind
      ((reads_bytes hcommand).bind ((reads_u64 hseq).bind ((reads_instSet hdeps).map _))))

end Readers

/-! ## Frames -/

/-- **A decoder and a frame**: the frame, with any bytes after it, is decoded to its message, and
every proper beginning of the frame is an error. -/
structure Decodes {α : Type} (dec : Bytes → Outcome Demand DecodeError α) (frame : Bytes) (m : α) :
    Prop where
  round_trip : ∀ t : Bytes, dec (frame ++ t) = .ok m frame.length
  truncated : ∀ q : Bytes, q <+: frame → q ≠ frame → ∃ e, dec q = .err e

lemma ReadsWire.decodes {α : Type} {k : ℕ} {r : Cursor α} {w : Bytes} {m : α}
    (h : ReadsWire k r w m) (hlen : w.length ≤ isizeMax) :
    Decodes (fun buf => r (machine k) buf 0) w m where
  round_trip := fun t => by simpa using h.whole [] t (by simpa using hlen)
  truncated := fun q hq hne => by simpa using h.short [] q (by simpa using hlen) hq hne

/-- **The codecs round-trip and are prefix-free.** Every Raft message, log entry and EPaxos message
whose numbers and lengths fit, and whose frame is one that memory can hold, is decoded from its frame
followed by any bytes, and no proper beginning of the frame decodes. -/
theorem codecs_round_trip (entrySize : ℕ) :
    (∀ m : Raft.Message, MessageFits entrySize m → (encode m).length ≤ isizeMax →
      Decodes (decode (machine entrySize)) (encode m) m) ∧
    (∀ e : Entry, EntryFits e → (encodeEntry e).length ≤ isizeMax →
      Decodes (decodeEntry (machine entrySize)) (encodeEntry e) e) ∧
    (∀ m : Epaxos.Message, EpaxosFits m → (encodeEpaxos m).length ≤ isizeMax →
      Decodes (decodeEpaxos (machine entrySize)) (encodeEpaxos m) m) :=
  ⟨fun _ h hlen => (reads_message h).decodes hlen, fun _ h hlen => (reads_entry h).decodes hlen,
    fun _ h hlen => (reads_epaxosMessage h).decodes hlen⟩

/-- An `AppendEntries` with a command, a no-op and a joint membership. -/
def sampleAppend : Raft.Message :=
  .appendEntries 3 1 4 2
    [⟨3, 5, .command [1, 2, 3]⟩, ⟨3, 6, .noop⟩, ⟨3, 7, .config (.joint [0, 1] [0, 1, 2])⟩] 4 11

/-- A `PreAccept` with two dependencies. -/
def samplePreAccept : Epaxos.Message :=
  .preAccept ⟨2, 0⟩ 0 [7, 1] 3 ((SortedSet.empty.insert ⟨1, 4⟩).insert ⟨0, 9⟩)

theorem codecs_round_trip_samples :
    Decodes (decode (machine 64)) (encode sampleAppend) sampleAppend ∧
    Decodes (decodeEntry (machine 64)) (encodeEntry ⟨3, 6, .noop⟩) ⟨3, 6, .noop⟩ ∧
    Decodes (decodeEpaxos (machine 64)) (encodeEpaxos samplePreAccept) samplePreAccept := by
  have hentries : EntriesFit 64 [⟨3, 5, .command [1, 2, 3]⟩, ⟨3, 6, .noop⟩,
      ⟨3, 7, .config (.joint [0, 1] [0, 1, 2])⟩] := by
    refine ⟨?_, by decide, by decide⟩
    intro e he
    simp only [List.mem_cons, List.not_mem_nil, or_false] at he
    rcases he with rfl | rfl | rfl
    · exact ⟨by decide, by decide, (by decide : U64 3)⟩
    · exact ⟨by decide, by decide, trivial⟩
    · exact ⟨by decide, by decide, ⟨by decide, by decide⟩, ⟨by decide, by decide⟩⟩
  have hdeps : DepsFit ((SortedSet.empty.insert ⟨1, 4⟩).insert ⟨0, 9⟩) := by
    refine ⟨?_, by decide⟩
    intro i hi
    rcases SortedSet.mem_insert.mp hi with rfl | hi
    · exact ⟨by decide, by decide⟩
    rcases SortedSet.mem_insert.mp hi with rfl | hi
    · exact ⟨by decide, by decide⟩
    · exact absurd hi SortedSet.not_mem_empty
  refine ⟨(codecs_round_trip 64).1 _ ?_ (by decide +kernel),
    (codecs_round_trip 64).2.1 _ ?_ (by decide +kernel),
    (codecs_round_trip 64).2.2 _ ?_ (by decide +kernel)⟩
  · exact ⟨by decide, by decide, by decide, by decide, hentries, by decide, by decide⟩
  · exact ⟨by decide, by decide, trivial⟩
  · exact ⟨⟨by decide, by decide⟩, by decide, by decide, by decide, hdeps⟩

end CrabScheme.Codec
