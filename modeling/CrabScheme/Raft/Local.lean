import CrabScheme.Raft.Numbering

/-!
# What a handler does to the log and the state machine

Recovery, the acknowledgement of proposals and the commit observer look at a few fields of a
replica only: its store, its memberships, how far it has committed and applied, its state machine
and the outbox of the driver. A handler changes them in few ways: it appends an entry, commits and
applies, takes a snapshot, or takes over what a leader sent. Between two of these the committed
entries are applied, which is not so between the elementary moves of a replica.

## Main results

* `Node.local_applyCommitted` — what `apply_committed` does.
* `Node.takes_onMessage`, `Node.works_take` — every handler is a sequence of these steps.
-/

namespace CrabScheme.Raft

open Relation (ReflTransGen)

variable {σ : Type}

namespace StateMachine

variable (M : StateMachine σ)

/-- What the driver sees of an applied entry. -/
def output (s : σ) (e : Entry) : Applied :=
  match e.payload with
  | .command cmd => ⟨e.index, cmd, (M.apply s cmd).2⟩
  | _ => ⟨e.index, [], []⟩

/-- What the driver sees of a list of applied entries. -/
def outputs : σ → List Entry → List Applied
  | _, [] => []
  | s, e :: es => M.output s e :: outputs (M.exec s e) es

end StateMachine

/-- **The part of a replica that is not about elections and the network.** -/
structure Local (σ : Type) where
  threshold : ℕ
  store : MemLogStore
  baseConfig : ConfState
  config : ConfState
  commitIndex : ℕ
  lastApplied : ℕ
  sm : σ
  appliedOutbox : List Applied
  history : List Entry

/-- The part of a replica, with the store without its hard state. -/
def Node.local (n : Node σ) : Local σ where
  threshold := n.cfg.snapshotThreshold
  store := n.store.bare
  baseConfig := n.baseConfig
  config := n.config
  commitIndex := n.commitIndex
  lastApplied := n.lastApplied
  sm := n.sm
  appliedOutbox := n.appliedOutbox
  history := n.history

namespace Local

variable (M : StateMachine σ) (l : Local σ)

/-- A new entry at the end of the log. -/
def append (t : ℕ) (p : EntryPayload) : Local σ :=
  { l with
    store := l.store.append [⟨t, l.store.lastIndex + 1, p⟩]
    config := if p.config?.isSome then
        (l.store.append [⟨t, l.store.lastIndex + 1, p⟩]).effective l.baseConfig
      else l.config }

/-- Entries are applied. -/
def applyBy (es : List Entry) : Local σ :=
  { l with
    lastApplied := l.lastApplied + es.length
    sm := M.replay l.sm es
    appliedOutbox := l.appliedOutbox ++ M.outputs l.sm es
    history := l.history ++ es }

/-- The next entries to apply. -/
def due (k : ℕ) : List Entry :=
  (l.store.log.drop (l.lastApplied - l.store.baseIndex)).take k

/-- The commit index moves, and the entries up to it are applied. -/
def applyTo (c : ℕ) : Local σ := { l with commitIndex := c }.applyBy M (l.due (c - l.lastApplied))

/-- What is applied is folded into a snapshot. -/
def compact : Local σ :=
  if l.lastApplied ≤ l.store.baseIndex then l
  else
    match l.store.termAt l.lastApplied with
    | none => l
    | some t =>
      let store := l.store.saveSnapshot ⟨l.lastApplied, t, M.snapshot l.sm⟩
      let base := l.store.configAt l.baseConfig l.lastApplied
      { l with store := store, baseConfig := base, config := store.effective base }

/-- A snapshot is taken if enough is applied. -/
def maybeCompact : Local σ :=
  if 0 < l.threshold ∧ l.threshold ≤ l.lastApplied - l.store.baseIndex then l.compact M else l

/-- **The commit index moves**: entries are applied, and folded into a snapshot if they are
enough. -/
def advance (c : ℕ) : Local σ := (l.applyTo M c).maybeCompact M

/-- Entries of a leader are taken over. -/
def takeOver (es : List Entry) : Local σ :=
  let store := es.foldl MemLogStore.splice l.store
  { l with store := store, config := store.effective l.baseConfig }

/-- **Entries of a leader are taken over, and its commit index.** -/
def accept (es : List Entry) (c : ℕ) : Local σ :=
  if l.commitIndex < c then (l.takeOver es).advance M (min c (l.takeOver es).store.lastIndex)
  else l.takeOver es

/-- **A snapshot is installed.** -/
def install (idx t : ℕ) (config : ConfState) (data : Bytes) : Local σ :=
  let kept :=
    if l.store.termAt idx ≠ some t then l.store.truncateSuffix (l.store.baseIndex + 1)
    else l.store
  let store := kept.saveSnapshot ⟨idx, t, data⟩
  { l with
    sm := M.restore l.sm data
    store := store
    baseConfig := config
    config := store.effective config
    commitIndex := max l.commitIndex idx
    lastApplied := max l.lastApplied idx }

/-- The driver empties the outbox. -/
def drain : Local σ := { l with appliedOutbox := [] }

/-- **What a replica keeps by itself.** -/
structure Kept (l : Local σ) : Prop where
  numbered : l.store.Numbered
  config : l.config = l.store.effective l.baseConfig
  base_le : l.store.baseIndex ≤ l.lastApplied

end Local

lemma View.Kept.local {n : Node σ} (h : n.view.Kept) : n.local.Kept :=
  ⟨h.numbered, h.config, h.base_le⟩

/-- **What a replica does by itself.** -/
inductive Works (M : StateMachine σ) : Local σ → Local σ → Prop
  | append {l : Local σ} (t : ℕ) (p : EntryPayload) : Works M l (l.append t p)
  | advance {l : Local σ} {c : ℕ} : l.commitIndex < c → c ≤ l.store.lastIndex →
      Works M l (l.advance M c)
  | compact {l : Local σ} : Works M l (l.compact M)

/-- **What a replica takes from a message.** -/
inductive Takes (M : StateMachine σ) (l : Local σ) : Message → Local σ → Prop
  | accept {t : ℕ} {ldr : ReplicaId} {prev pt : ℕ} {es : List Entry} {c r : ℕ} :
      l.store.termAt prev = some pt →
      Takes M l (.appendEntries t ldr prev pt es c r) (l.accept M es c)
  | install {t : ℕ} {ldr : ReplicaId} {idx it : ℕ} {config : ConfState} {data : Bytes} {r : ℕ} :
      l.store.baseIndex < idx →
      Takes M l (.installSnapshot t ldr idx it config data r) (l.install M idx it config data)

/-! ## The steps keep the replica in order -/

namespace Local.Kept

variable {M : StateMachine σ} {l : Local σ}

lemma append (h : l.Kept) (t : ℕ) (p : EntryPayload) : (l.append t p).Kept := by
  refine ⟨h.numbered.concat _ _, ?_, h.base_le⟩
  show (if _ then _ else l.config) = _
  split_ifs with hp
  · rfl
  · have heff := h.numbered.effective_append t p l.baseConfig
    rw [Option.not_isSome_iff_eq_none.mp hp] at heff
    exact h.config.trans heff.symm

lemma compact (h : l.Kept) : (l.compact M).Kept := by
  unfold Local.compact
  split_ifs with hbase
  · exact h
  · cases l.store.termAt l.lastApplied with
    | none => exact h
    | some t => exact ⟨h.numbered.saveSnapshot h.base_le, rfl, le_rfl⟩

lemma advance (h : l.Kept) (c : ℕ) : (l.advance M c).Kept := by
  have happly : (l.applyTo M c).Kept :=
    ⟨h.numbered, h.config, h.base_le.trans (Nat.le_add_right _ _)⟩
  unfold Local.advance Local.maybeCompact
  split_ifs
  · exact happly.compact
  · exact happly

lemma takeOver (h : l.Kept) {es : List Entry} {prev pt : ℕ} (hprev : l.store.termAt prev = some pt)
    (hes : ∀ q e, es[q]? = some e → e.index = prev + q + 1) : (l.takeOver es).Kept :=
  ⟨(h.numbered.splices (h.numbered.le_of_termAt hprev) hes).1, rfl,
    (MemLogStore.splices_baseIndex _ _).trans_le h.base_le⟩

lemma length_due (h : l.Kept) {c : ℕ} (hc : c ≤ l.store.lastIndex) :
    (l.due (c - l.lastApplied)).length = c - l.lastApplied := by
  have hbase := h.base_le
  rw [h.numbered.lastIndex_eq] at hc
  unfold Local.due
  rw [List.length_take, List.length_drop]
  omega

lemma lastApplied_applyTo (h : l.Kept) {c : ℕ} (hc : c ≤ l.store.lastIndex) :
    (l.applyTo M c).lastApplied = max l.lastApplied c := by
  show l.lastApplied + (l.due (c - l.lastApplied)).length = _
  rw [h.length_due hc]
  omega

lemma works {l' : Local σ} (h : l.Kept) (hw : Works M l l') : l'.Kept := by
  cases hw with
  | append t p => exact h.append t p
  | advance => exact h.advance _
  | compact => exact h.compact

lemma takes {l' : Local σ} {msg : Message} (h : l.Kept) (hmsg : msg.Numbered)
    (ht : Takes M l msg l') : l'.Kept := by
  cases ht with
  | accept hprev =>
    have hover := h.takeOver hprev hmsg
    unfold Local.accept
    split_ifs
    · exact hover.advance _
    · exact hover
  | install hlt => exact ⟨h.numbered.install hlt.le, rfl, le_max_right _ _⟩

end Local.Kept

lemma Local.config_compact {M : StateMachine σ} {l : Local σ} (hk : l.Kept) :
    (l.compact M).config = l.config := by
  unfold Local.compact
  split_ifs
  · rfl
  · cases l.store.termAt l.lastApplied with
    | none => rfl
    | some t =>
      rw [hk.config]
      exact hk.numbered.effective_saveSnapshot hk.base_le _

/-! ## `apply_committed` -/

namespace Node

variable {M : StateMachine σ} (n : Node σ)

lemma local_applyNext {e : Entry} (he : n.entryAt (n.lastApplied + 1) = some e)
    (hidx : e.index = n.lastApplied + 1) : (n.applyNext M).local = n.local.applyBy M [e] := by
  unfold applyNext
  dsimp only
  rw [he]
  obtain ⟨t, i, payload⟩ := e
  cases hidx
  cases payload <;> rfl

lemma exists_due (hk : n.local.Kept) (hlast : n.lastApplied + 1 ≤ n.store.lastIndex) :
    ∃ e, n.entryAt (n.lastApplied + 1) = some e ∧ e.index = n.lastApplied + 1 ∧
      ∀ k, n.local.due (k + 1) = e :: (n.local.applyBy M [e]).due k := by
  have hnum : n.store.Numbered := hk.numbered
  have hbase : n.store.baseIndex ≤ n.lastApplied := hk.base_le
  obtain ⟨e, he⟩ := hnum.exists_entry (by omega) hlast
  refine ⟨e, ?_, (hnum.entry_eq_some_iff.mp he).2, fun k => ?_⟩
  · unfold entryAt
    rw [if_neg (by omega)]
    exact he
  · unfold MemLogStore.entry at he
    rw [if_neg (by omega), Nat.sub_right_comm, Nat.add_sub_cancel] at he
    obtain ⟨hlt, hget⟩ := List.getElem?_eq_some_iff.mp he
    have hsucc : n.lastApplied + 1 - n.store.baseIndex = n.lastApplied - n.store.baseIndex + 1 := by
      omega
    show (n.store.log.drop (n.lastApplied - n.store.baseIndex)).take (k + 1) =
      e :: (n.store.log.drop (n.lastApplied + 1 - n.store.baseIndex)).take k
    rw [List.drop_eq_getElem_cons hlt, hget, List.take_succ_cons, hsucc]

lemma local_applyLoop (k : ℕ) (n : Node σ) (hk : n.local.Kept)
    (hlast : n.lastApplied + k ≤ n.store.lastIndex) :
    (applyLoop M k n).local = n.local.applyBy M (n.local.due k) := by
  induction k generalizing n with
  | zero => simp [applyLoop, Local.applyBy, Local.due, StateMachine.outputs, StateMachine.replay]
  | succ k ih =>
    obtain ⟨e, he, hidx, hdue⟩ := n.exists_due (M := M) hk (by omega)
    have hnext := local_applyNext (M := M) n he hidx
    have hlast' : (n.applyNext M).lastApplied + k ≤ (n.applyNext M).store.lastIndex := by
      have hla : (n.applyNext M).lastApplied = n.lastApplied + 1 := congrArg Local.lastApplied hnext
      have hst : (n.applyNext M).store.bare = n.store.bare := congrArg Local.store hnext
      rw [← bare_lastIndex, hst, bare_lastIndex]
      omega
    have hk' : (n.applyNext M).local.Kept := by
      rw [hnext]
      exact ⟨hk.numbered, hk.config, hk.base_le.trans (Nat.le_add_right _ _)⟩
    rw [applyLoop, ih _ hk' hlast', hnext, hdue]
    simp [Local.applyBy, StateMachine.outputs, StateMachine.replay, Nat.add_assoc, Nat.add_comm 1]

@[simp] lemma local_serveReads : (n.serveReads M).local = n.local := by
  unfold serveReads
  split <;> rfl

@[simp] lemma local_compact : (n.compact M).local = n.local.compact M := by
  unfold compact Local.compact
  by_cases h : n.lastApplied ≤ n.store.baseIndex
  · rw [if_pos h, if_pos (show n.local.lastApplied ≤ n.local.store.baseIndex from h)]
  · rw [if_neg h, if_neg (show ¬n.local.lastApplied ≤ n.local.store.baseIndex from h)]
    show _ = match n.store.termAt n.lastApplied with | none => _ | some t => _
    cases n.store.termAt n.lastApplied <;> rfl

@[simp] lemma local_maybeCompact : (n.maybeCompact M).local = n.local.maybeCompact M := by
  unfold maybeCompact
  by_cases h : 0 < n.cfg.snapshotThreshold ∧
      n.cfg.snapshotThreshold ≤ n.lastApplied - n.store.baseIndex
  · rw [if_pos h, local_compact]
    exact (if_pos h).symm
  · rw [if_neg h]
    exact (if_neg h).symm

/-- **`apply_committed`**, when the committed entries are there. -/
lemma local_applyCommitted (hk : n.local.Kept) (hlast : n.commitIndex ≤ n.store.lastIndex) :
    (n.applyCommitted M).local = n.local.advance M n.commitIndex := by
  unfold applyCommitted
  rw [local_maybeCompact, local_serveReads]
  congr 1
  rcases Nat.lt_or_ge n.lastApplied n.commitIndex with hlt | hge
  · exact local_applyLoop _ n hk (by omega)
  · rw [Nat.sub_eq_zero_of_le hge]
    show n.local = n.local.applyBy M (n.local.due (n.commitIndex - n.lastApplied))
    rw [Nat.sub_eq_zero_of_le hge]
    simp [Local.applyBy, Local.due, StateMachine.outputs, StateMachine.replay]

lemma applyLoop_frame (k : ℕ) (n : Node σ) :
    (applyLoop M k n).local.store = n.local.store ∧
      (applyLoop M k n).local.config = n.local.config ∧
      (applyLoop M k n).local.baseConfig = n.local.baseConfig ∧
      n.lastApplied ≤ (applyLoop M k n).lastApplied := by
  induction k generalizing n with
  | zero => exact ⟨rfl, rfl, rfl, le_rfl⟩
  | succ k ih =>
    have hnext : (n.applyNext M).local.store = n.local.store ∧
        (n.applyNext M).local.config = n.local.config ∧
        (n.applyNext M).local.baseConfig = n.local.baseConfig ∧
        n.lastApplied ≤ (n.applyNext M).lastApplied := by
      unfold applyNext
      dsimp only
      split
      · exact ⟨rfl, rfl, rfl, Nat.le_succ _⟩
      · split <;> exact ⟨rfl, rfl, rfl, Nat.le_succ _⟩
    obtain ⟨hs, hc, hb, hla⟩ := ih (n.applyNext M)
    exact ⟨hs.trans hnext.1, hc.trans hnext.2.1, hb.trans hnext.2.2.1, hnext.2.2.2.trans hla⟩

lemma config_applyCommitted (hk : n.local.Kept) : (n.applyCommitted M).config = n.config := by
  obtain ⟨hs, hc, hb, hla⟩ := applyLoop_frame (n.commitIndex - n.lastApplied) n
  have hk' : (applyLoop M (n.commitIndex - n.lastApplied) n).local.Kept :=
    ⟨hs ▸ hk.numbered, by rw [hs, hc, hb]; exact hk.config, hs ▸ hk.base_le.trans hla⟩
  show (n.applyCommitted M).local.config = _
  unfold applyCommitted
  rw [local_maybeCompact, local_serveReads]
  unfold Local.maybeCompact
  split_ifs
  · rw [Local.config_compact hk', hc]
    rfl
  · exact hc

/-! ## The handlers -/

@[simp] lemma local_becomeFollower (t : ℕ) (l : Option ReplicaId) :
    (n.becomeFollower t l).local = n.local := by
  unfold becomeFollower
  dsimp only
  split <;> rfl

@[simp] lemma local_appendLocal (p : EntryPayload) :
    (n.appendLocal p).local = n.local.append n.currentTerm p := by
  unfold appendLocal Local.append
  by_cases h : p.config?.isSome = true
  · simp only [if_pos h]
    rfl
  · simp only [if_neg h]
    rfl

lemma works_finalizeJointIfCommitted :
    ReflTransGen (Works M) n.local n.finalizeJointIfCommitted.local := by
  unfold finalizeJointIfCommitted
  split
  · cases n.config with
    | simple vs => exact .refl
    | joint old new =>
      cases n.store.lastConfigIndex with
      | none => exact .refl
      | some idx =>
        dsimp only
        split
        · exact .single (.append _ _)
        · exact .refl
  · exact .refl

lemma works_maybeAdvanceCommit (hk : n.local.Kept) :
    ReflTransGen (Works M) n.local (n.maybeAdvanceCommit M).local := by
  refine maybeAdvanceCommit_cases (P := fun n' => ReflTransGen (Works M) n.local n'.local) .refl
    fun idx _ hlt hlast _ => ?_
  have happly : (({ n with commitIndex := idx }.persistHardState).applyCommitted M).local =
      n.local.advance M idx :=
    local_applyCommitted _ ⟨hk.numbered, hk.config, hk.base_le⟩ hlast
  refine .head ?_ (works_finalizeJointIfCommitted _)
  rw [happly]
  exact Works.advance hlt hlast

lemma works_becomeLeader (hk : n.local.Kept) :
    ReflTransGen (Works M) n.local (n.becomeLeader M).1.local := by
  have happ : (n.leading.appendLocal .noop).local = n.local.append n.currentTerm .noop :=
    local_appendLocal _ _
  refine .head (Works.append n.currentTerm .noop) ?_
  exact works_maybeAdvanceCommit _ (happ ▸ hk.append _ _)

lemma local_heard (t : ℕ) : (n.heard t).local = n.local := by
  unfold heard
  split
  · exact local_becomeFollower n t none
  · rfl

lemma local_accepting (hk : n.local.Kept) {prev pt : ℕ} {es : List Entry} (c : ℕ)
    (hprev : n.local.store.termAt prev = some pt)
    (hes : ∀ q e, es[q]? = some e → e.index = prev + q + 1) :
    (n.accepting M es c).local = n.local.accept M es c := by
  have hover : (n.splicing es).local = n.local.takeOver es := by
    simp only [splicing, recomputeConfig, Node.local, Local.takeOver]
    rw [← bare_splices, bare_effective]
  have hkept : (n.splicing es).local.Kept := hover ▸ hk.takeOver hprev hes
  unfold accepting Local.accept
  rw [show (n.splicing es).commitIndex = n.local.commitIndex from rfl]
  split
  · have hk' (idx : ℕ) : ((n.splicing es).committing idx).local.Kept :=
      ⟨hkept.numbered, hkept.config, hkept.base_le⟩
    rw [local_applyCommitted _ (hk' _) (min_le_right _ _), ← hover]
    rfl
  · exact hover

lemma local_installing (idx it : ℕ) (config : ConfState) (data : Bytes) :
    (n.installing M idx it config data).local = n.local.install M idx it config data := by
  have hkept : (if n.local.store.termAt idx ≠ some it then
      n.local.store.truncateSuffix (n.local.store.baseIndex + 1) else n.local.store) =
      (if n.store.termAt idx ≠ some it then n.store.truncateSuffix (n.store.baseIndex + 1)
        else n.store).bare := by
    rw [apply_ite MemLogStore.bare, bare_truncateSuffix]
    rfl
  unfold Local.install
  rw [hkept]
  rfl

lemma works_propose (hk : n.local.Kept) (cmd : Bytes) (hrole : n.role = .leader) :
    ReflTransGen (Works M) (n.local.append n.currentTerm (.command cmd))
      (n.propose M cmd).2.1.local := by
  unfold propose
  rw [if_pos hrole]
  have h := works_maybeAdvanceCommit (M := M) (n.appendLocal (.command cmd)).broadcastAppend.1
  exact h (hk.append _ _)

/-- **What a branch of a handler does**: the replica takes from a message what it brings, and then
works by itself. -/
lemma Branch.takes {n : Node σ} {input : Input} {out : Node σ × List Out}
    (h : n.Branch M input out) (hk : n.local.Kept)
    (hmsg : ∀ s msg, input = .message s msg → msg.Numbered) :
    ∃ l, (l = n.local ∨ ∃ s msg, input = .message s msg ∧ n.currentTerm ≤ msg.term ∧
      Takes M n.local msg l) ∧ ReflTransGen (Works M) l out.1.local := by
  -- a branch in which the replica takes nothing
  have alone : ∀ {n' : Node σ}, ReflTransGen (Works M) n.local n'.local →
      ∃ l, (l = n.local ∨ ∃ s msg, input = .message s msg ∧ n.currentTerm ≤ msg.term ∧
        Takes M n.local msg l) ∧ ReflTransGen (Works M) l n'.local := fun h => ⟨_, .inl rfl, h⟩
  have same : ∀ {n' : Node σ}, n'.local = n.local → ReflTransGen (Works M) n.local n'.local :=
    fun h => h ▸ .refl
  have hfollow (t : ℕ) (l : Option ReplicaId) := local_becomeFollower n t l
  cases h with
  | ignore | outdated | wait | heartbeat | campaign | count | decline => exact alone .refl
  | elect => exact alone (works_becomeLeader n.campaigning hk)
  | @win s => exact alone (works_becomeLeader (n.counting s) hk)
  | refuse | vote => exact alone (same (local_heard n _))
  | depose | conflict | cover => exact alone (same (hfollow _ _))
  | @accept s l t prev pt es c r hle hprev =>
    have hk1 : (n.becomeFollower t (some l)).local.Kept := (hfollow t (some l)).symm ▸ hk
    have hlocal := local_accepting (M := M) _ hk1 c hprev (hmsg _ _ rfl)
    have hprev : (n.becomeFollower t (some l)).local.store.termAt prev = some pt := hprev
    rw [hfollow] at hlocal hprev
    exact ⟨_, .inr ⟨_, _, rfl, hle, .accept hprev⟩, hlocal ▸ .refl⟩
  | @install s l t li lt config data r hle hbase =>
    have hlocal := local_installing (M := M) (n.becomeFollower t (some l)) li lt config data
    have hbase : (n.becomeFollower t (some l)).local.store.baseIndex < li := hbase
    rw [hfollow] at hlocal hbase
    exact ⟨_, .inr ⟨_, _, rfl, hle, .install hbase⟩, hlocal ▸ .refl⟩
  | @acknowledge s m _ r =>
    refine alone ?_
    rw [local_serveReads]
    exact works_maybeAdvanceCommit (n.matching s m r) hk
  | back | read => exact alone (same (local_serveReads _))
  | @propose cmd hrole =>
    have hworks := works_propose (M := M) n hk cmd hrole
    rw [Node.propose, if_pos hrole] at hworks
    exact alone (.head (Works.append n.currentTerm (.command cmd)) hworks)
  | begin => exact alone (.single ((local_appendLocal n _).symm ▸ Works.append _ _))

/-- **What a message does**: the replica takes from it what it brings, and then works by itself. -/
lemma takes_onMessage (hk : n.local.Kept) (s : ReplicaId) {msg : Message} (hmsg : msg.Numbered) :
    ∃ l, (l = n.local ∨ n.currentTerm ≤ msg.term ∧ Takes M n.local msg l) ∧
      ReflTransGen (Works M) l (n.onMessage M s msg).1.local := by
  have hnum : ∀ s' msg', Input.message s msg = .message s' msg' → msg'.Numbered := by
    intro s' msg' heq
    cases heq
    exact hmsg
  obtain ⟨l, hl, hw⟩ := (branch_take M n (.message s msg)).takes hk hnum
  refine ⟨l, hl.imp_right ?_, hw⟩
  rintro ⟨_, _, heq, htakes⟩
  cases heq
  exact htakes

/-- **What a replica does without a message.** -/
lemma works_take (hk : n.local.Kept) (input : Input) (h : ∀ s msg, input ≠ .message s msg) :
    ReflTransGen (Works M) n.local (n.take M input).1.local := by
  obtain ⟨l, hl, hw⟩ := (branch_take M n input).takes hk fun s msg heq => absurd heq (h s msg)
  rcases hl with rfl | ⟨s, msg, heq, -⟩
  · exact hw
  · exact absurd heq (h s msg)

@[simp] lemma local_read (reqId : ℕ) (q : Bytes) : (n.read M reqId q).1.local = n.local := by
  unfold read
  split
  · exact local_serveReads _
  · rfl

end Node

end CrabScheme.Raft
