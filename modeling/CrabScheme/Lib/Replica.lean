import CrabScheme.Lib.HistorySteps

/-!
# A node in step with the history

What a single node has to know of itself so that what it does keeps the history of the group
sound: its votes, campaigns and acknowledgements are of terms it has reached, its log comes from
leaders, it still has what it acknowledged, and what it believes committed is committed.

## Main results

* `Replication.InStep.mono` — what other nodes do does not matter.
* `Replication.InStep.advance`, `Replication.InStep.stand`, `Replication.InStep.cast`,
  `Replication.InStep.elect`, `Replication.InStep.extend`, `Replication.InStep.takeOver`,
  `Replication.InStep.commitUpTo` — what the node itself does.
-/

namespace Replication

open Quorum

variable {ι ε : Type*}

/-! ## Taking over a prefix -/

section TakeOver

variable [DecidableEq ε] {l L x : List ε} {j : ℕ}

/-- **A prefix of a leader's log is taken over**: a log that has it stays, another one is
replaced. -/
def takeOver (l L : List ε) (j : ℕ) : List ε := if L.take j <+: l then l else L.take j

lemma takeOver_eq_self (h : L.take j <+: l) : takeOver l L j = l := if_pos h

lemma takeOver_eq_take (h : ¬L.take j <+: l) : takeOver l L j = L.take j := if_neg h

lemma take_le_takeOver : L.take j <+: takeOver l L j := by
  unfold takeOver
  split
  · assumption
  · exact List.prefix_rfl

lemma le_takeOver (h : x <+: l) (h' : x <+: L) : x <+: takeOver l L j := by
  by_cases hj : L.take j <+: l
  · rwa [takeOver_eq_self hj]
  · rw [takeOver_eq_take hj]
    have hL : L.take j <+: L := List.take_prefix _ _
    rcases le_total x.length (L.take j).length with hlen | hlen
    · exact List.prefix_of_prefix_length_le h' hL hlen
    · exact absurd ((List.prefix_of_prefix_length_le hL h' hlen).trans h) hj

lemma mem_takeOver {e : ε} (h : e ∈ takeOver l L j) : e ∈ l ∨ e ∈ L := by
  unfold takeOver at h
  split at h
  · exact .inl h
  · exact .inr (List.mem_of_mem_take h)

lemma sourced_takeOver {P : Scheme ι ε} {H : History ι ε} (h : H.Sourced P l)
    (h' : H.Sourced P L) : H.Sourced P (takeOver l L j) := by
  unfold takeOver
  split
  · exact h
  · exact Sourced.of_take h' <| List.take_prefix _ _

end TakeOver

/-! ## Nodes in step -/

/-- **A node in step with the history.** -/
structure InStep (P : Scheme ι ε) (H : History ι ε) (i : ι) (term synced commit : ℕ)
    (log : List ε) : Prop where
  ballot : ∀ {t b}, H.ballot t i = some b → t ≤ term
  campaign : ∀ {t l}, H.campaign t i = some l → t ≤ term
  ack : ∀ {t}, 0 < H.ack t i → t ≤ synced
  /-- The last leader the node followed is of a term it has reached. -/
  synced_le : synced ≤ term
  followed : synced = 0 ∨ ∃ n, H.leader synced = some n
  sourced : H.Sourced P log
  terms : ∀ e ∈ log, P.term e ≤ term
  /-- The node still has what it acknowledged, if the leaders it followed since had it. -/
  kept : ∀ {t k}, k ≤ H.ack t i → H.Carried t k synced → (H.llog t).take k <+: log
  settled : H.Settled term commit log

section InStep

variable {P : Scheme ι ε} {H H' : History ι ε} {i : ι} {term synced commit : ℕ} {log : List ε}

lemma InStep.leader (h : InStep P H i term synced commit log) (hH : Sound P H) {t : ℕ}
    (ht : H.leader t = some i) : t ≤ term := by
  obtain ⟨l, hl, -⟩ := hH.elected ht
  exact h.campaign hl

lemma Carried.of_le (hH : Sound P H) (hH' : Sound P H') (hle : H ≤ H') {t k u : ℕ}
    (hk : k ≤ (H.llog t).length) (h : H'.Carried t k u) : H.Carried t k u := by
  rintro s hs hsu ⟨n, hn⟩
  have hpre := h s hs hsu ⟨n, hle.leader hn⟩
  rw [take_of_le (hle.llog t) hk] at hpre
  obtain ⟨l, hl, hl0, -⟩ := hH.elected hn
  obtain ⟨l', hl', -, hown, -⟩ := hH'.elected (hle.leader hn)
  obtain rfl : l = l' := Option.some.inj ((hle.campaign hl).symm.trans hl')
  refine prefix_of_not_mem (hle.llog s) hpre fun x hx hin => ?_
  have hlate : P.term x = s := by
    refine hown x ?_
    rw [← Nat.add_sub_cancel' hl0.length_le, ← List.drop_drop] at hx
    exact List.mem_of_mem_drop hx
  have := hH.term_le (List.mem_of_mem_take hin)
  omega

variable (h : InStep P H i term synced commit log)

include h

/-- **What other nodes do does not matter** to a node in step. -/
lemma InStep.mono (hH : Sound P H) (hH' : Sound P H') (hle : H ≤ H')
    (hballot : ∀ t, H'.ballot t i = H.ballot t i)
    (hcampaign : ∀ t, H'.campaign t i = H.campaign t i) (hack : ∀ t, H'.ack t i = H.ack t i) :
    InStep P H' i term synced commit log where
  ballot hb := h.ballot ((hballot _).symm.trans hb)
  campaign hl := h.campaign ((hcampaign _).symm.trans hl)
  ack ht := h.ack (hack _ ▸ ht)
  synced_le := h.synced_le
  followed := h.followed.imp_right fun ⟨n, hn⟩ => ⟨n, hle.leader hn⟩
  sourced := Sourced.mono h.sourced hle
  terms := h.terms
  kept := by
    intro t k hk hcarried
    rw [hack] at hk
    have hlen := hk.trans (hH.ack t i)
    rw [take_of_le (hle.llog t) hlen]
    exact h.kept hk (Carried.of_le hH hH' hle hlen hcarried)
  settled := h.settled.mono hle le_rfl

lemma InStep.advance {term' : ℕ} (ht : term ≤ term') : InStep P H i term' synced commit log where
  ballot hb := (h.ballot hb).trans ht
  campaign hl := (h.campaign hl).trans ht
  ack := h.ack
  synced_le := h.synced_le.trans ht
  followed := h.followed
  sourced := h.sourced
  terms e he := (h.terms e he).trans ht
  kept := h.kept
  settled := h.settled.mono le_rfl ht

lemma InStep.learn {commit' : ℕ} (hc : H.Settled term commit' log)
    : InStep P H i term synced commit' log :=
  { h with settled := hc }

/-- **The node wins the election** of its term, with the log it campaigned with. -/
lemma InStep.elect (hH : Sound P H) (hnone : H.leader term = none)
    (hl : H.campaign term i = some log) (hQ : (P.conf log).IsQuorum (H.votes term i))
    : Sound P (H.elect term i log) ∧ InStep P (H.elect term i log) i term synced commit log := by
  have hfresh : H.votes term i ⊆ H.freshVotes term i := by
    rintro v ⟨b, hb, hcand⟩
    refine ⟨b, hb, hcand, lt_of_le_of_ne (hH.ballot hb).1 fun heq => ?_⟩
    -- a voter that follows a leader of the term knows of one
    rcases hH.followed hb with h0 | ⟨n, hn⟩
    · have := (hH.campaign hl).1
      omega
    · rw [heq, hnone] at hn
      cases hn
  have hH' := hH.elect hnone hl (hQ.mono hfresh)
  have hle := History.le_elect (n := i) (l := log) hnone (hH.idle hnone)
  exact ⟨hH', h.mono hH hH' hle (fun _ => rfl) (fun _ => rfl) fun _ => rfl⟩

/-- **The node adds an entry** to its log as the leader of its term. -/
lemma InStep.extend {e : ε} (hH : Sound P H) (hlead : H.leader term = some i)
    (hlog : H.llog term = log) (hterm : P.term e = term)
    (hjoint : ∀ x y, P.change e = some (.joint x y) → P.conf log = .simple x)
    (hsimple : ∀ y, P.change e = some (.simple y) → (∃ x, P.conf log = .joint x y) ∧ ∀ p e', log[p]? = some e' → P.change e' ≠ none → H.CommittedBefore term log.length (log.take (p + 1)))
    : Sound P (H.extend term e) ∧ InStep P (H.extend term e) i term synced commit (log ++ [e]) := by
  have hle : H ≤ H.extend term e := History.le_extend
  subst hlog
  have hH' := hH.extend hlead hterm hjoint hsimple
  have h' := h.mono hH hH' hle (fun _ => rfl) (fun _ => rfl) fun _ => rfl
  have hnew : (H.extend term e).llog term = H.llog term ++ [e] := by simp [History.extend]
  refine ⟨hH', { h' with sourced := ?_, terms := ?_, kept := ?_, settled := ?_ }⟩
  · rw [← hnew]
    exact hH'.sourced_llog ⟨i, hlead⟩
  · rw [← hnew]
    exact fun e he => hH'.term_le he
  · exact fun hk hc => (h'.kept hk hc).trans (List.prefix_append _ _)
  · exact h'.settled.extend (List.prefix_append _ _)

/-- **The node finds its log committed** up to an entry of its term, as the leader. -/
lemma InStep.commitUpTo {e : ε} {k : ℕ} (hH : Sound P H) (hlead : H.leader term = some i)
    (hlog : H.llog term = log) (he : log[k]? = some e) (hterm : P.term e = term)
    (hQ : (P.conf log).IsQuorum {v | k + 1 ≤ H.ack term v}) :
    Sound P (H.commit term (k + 1) log.length) ∧
      InStep P (H.commit term (k + 1) log.length) i term synced (k + 1) log := by
  have hk : k + 1 ≤ log.length := (List.getElem?_eq_some_iff.mp he).1
  have hle : H ≤ H.commit term (k + 1) log.length := History.le_commit
  subst hlog
  have hH' := hH.commit hlead hk le_rfl rfl he hterm (by rwa [List.take_length])
  refine ⟨hH', (h.mono hH hH' hle (fun _ => rfl) (fun _ => rfl) fun _ => rfl).learn ?_⟩
  exact ⟨hk, .inr ⟨term, k + 1, _, le_rfl, .inr ⟨rfl, rfl, rfl⟩, le_rfl, List.take_prefix _ _⟩⟩

variable [DecidableEq ι]

/-- **The node campaigns** in the next term. -/
lemma InStep.stand (hH : Sound P H) : Sound P (H.stand (term + 1) i log) ∧
      InStep P (H.stand (term + 1) i log) i (term + 1) synced commit log := by
  have hnone : H.campaign (term + 1) i = none := by
    cases hc : H.campaign (term + 1) i with
    | none => rfl
    | some l => exact absurd (h.campaign hc) (by omega)
  have hle := History.le_stand (l := log) hnone
  refine ⟨hH.stand hnone (Nat.succ_pos _) (fun e he => Nat.lt_succ_of_le (h.terms e he)) h.sourced,
    ?_⟩
  have h' := h.advance (Nat.le_succ term)
  refine { h' with sourced := Sourced.mono h'.sourced hle, campaign := ?_, settled := ?_ }
  · intro t l hl
    by_cases ht : t = term + 1
    · exact ht.le
    · refine h'.campaign (l := l) ?_
      simpa [History.stand, ht] using hl
  · exact h'.settled.mono hle le_rfl

/-- **The node votes**, in its term and for a log at least as up to date as its own. -/
lemma InStep.cast (hH : Sound P H) {c : ι} {l : List ε} (hnone : H.ballot term i = none)
    (hl : H.campaign term c = some l) (hup : P.UpToDate l log) :
    Sound P (H.cast term i ⟨c, log, synced⟩) ∧
      InStep P (H.cast term i ⟨c, log, synced⟩) i term synced commit log := by
  have hle := History.le_cast (b := ⟨c, log, synced⟩) hnone
  refine ⟨hH.cast hnone h.synced_le h.followed h.sourced hl hup fun t0 k _ hk hc => h.kept hk hc, ?_⟩
  refine { h with sourced := Sourced.mono h.sourced hle, ballot := ?_, settled := ?_ }
  · intro t b hb
    by_cases ht : t = term
    · exact ht.le
    · refine h.ballot (b := b) ?_
      simpa [History.cast, ht] using hb
  · exact h.settled.mono hle le_rfl

variable [DecidableEq ε]

/-- **The node follows the leader of its term**: it takes over a prefix of the leader's log and
acknowledges it. -/
lemma InStep.takeOver (hH : Sound P H) (hlead : ∃ n, H.leader term = some n) {j commit' : ℕ}
    (hj : j ≤ (H.llog term).length) (hc : H.Settled term commit' (takeOver log (H.llog term) j)) :
    Sound P (H.acknowledge term i j) ∧ InStep P (H.acknowledge term i j) i term term commit'
      (Replication.takeOver log (H.llog term) j) := by
  have hle : H ≤ H.acknowledge term i j := History.le_acknowledge
  refine ⟨hH.acknowledge hj fun t b hb => h.ballot hb, h.ballot, h.campaign, ?_, le_rfl,
    .inr hlead, ?_, ?_, ?_, hc.mono hle le_rfl⟩
  · intro t ht
    by_cases hterm : t = term
    · exact hterm.le
    · refine (h.ack ?_).trans h.synced_le
      simpa [History.acknowledge, hterm] using ht
  · exact Sourced.mono (sourced_takeOver h.sourced (hH.sourced_llog hlead)) hle
  · intro e he
    rcases mem_takeOver he with he | he
    · exact h.terms e he
    · exact hH.term_le he
  · intro t k hk hcarried
    -- what was acknowledged before is in both logs
    have hold : k ≤ H.ack t i → (H.llog t).take k <+: Replication.takeOver log (H.llog term) j := by
      intro hk
      have hlog : (H.llog t).take k <+: log :=
        h.kept hk fun s hs hsu => hcarried s hs (hsu.trans h.synced_le)
      refine le_takeOver hlog ?_
      rcases Nat.lt_trichotomy t term with ht | rfl | ht
      · exact hcarried term ht le_rfl hlead
      · exact List.take_prefix _ _
      · -- no later term was acknowledged
        have hzero : k = 0 := by
          by_contra hne
          have := h.ack (t := t) (by omega)
          have := h.synced_le
          omega
        rw [hzero]
        exact List.nil_prefix
    by_cases hterm : t = term
    · subst hterm
      have hk' : k ≤ max (H.ack t i) j := by simpa [History.acknowledge] using hk
      rcases le_or_gt k j with hkj | hkj
      · exact take_prefix_of_le hkj take_le_takeOver
      · exact hold (by omega)
    · exact hold (by simpa [History.acknowledge, hterm] using hk)

end InStep

end Replication
