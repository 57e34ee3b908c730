import CrabScheme.Lib.Quorum

/-!
# Histories of leader-based replication

What a group of nodes that replicate a log under elected leaders leaves behind, term by term: who
campaigned with which log, who voted for whom, who led and which log that leader built, how much
of it each node acknowledged, and what was found committed. The file says what such a history
must satisfy and derives the safety of replication from it, for memberships that change through
joint quorums. It knows nothing of messages or of the state of a node.

## Main results

* `Replication.Sourced.agree` — logs that share the term of an entry agree up to it.
* `Replication.Sound.complete` — what was committed in one term is in the log of every later
  leader.
* `Replication.Sound.unique_winner` — one term has one leader.
* `Replication.Sound.settled_agree` — committed prefixes agree.
-/

namespace Replication

open Quorum

variable {ι ε : Type*}

/-! ## Lists that agree up to a position -/

section Prefix

variable {l l' : List ε} {k m : ℕ}

lemma take_eq_of_take (h : l.take k <+: l') (hk : k ≤ l.length) : l'.take k = l.take k := by
  have hlen : (l.take k).length = k := List.length_take_of_le hk
  have := List.prefix_iff_eq_take.mp h
  rw [hlen] at this
  exact this.symm

lemma take_of_le (h : l <+: l') (hk : k ≤ l.length) : l'.take k = l.take k := by
  obtain ⟨r, rfl⟩ := h
  exact List.take_append_of_le_length hk

lemma le_length_of_take (h : l.take k <+: l') (hk : k ≤ l.length) : k ≤ l'.length := by
  have := h.length_le
  rwa [List.length_take_of_le hk] at this

lemma take_eq_mono (h : l.take k = l'.take k) (hm : m ≤ k) : l.take m = l'.take m := by
  rw [← Nat.min_eq_left hm, ← List.take_take, h, List.take_take]

lemma take_prefix_of_le (hk : m ≤ k) (h : l.take k <+: l') : l.take m <+: l' := by
  refine List.IsPrefix.trans ?_ h
  rw [← Nat.min_eq_left hk, ← List.take_take]
  exact List.take_prefix _ _

lemma getElem?_eq_of_take_eq (h : l.take k = l'.take k) (hm : m < k) : l[m]? = l'[m]? := by
  rw [← List.getElem?_take_of_lt hm, h, List.getElem?_take_of_lt hm]

lemma take_eq_of_prefixes {l0 : List ε} (h : l <+: l0) (h' : l' <+: l0) (hk : k ≤ l.length)
    (hk' : k ≤ l'.length) : l.take k = l'.take k := by
  rw [List.prefix_iff_eq_take.mp h, List.prefix_iff_eq_take.mp h', List.take_take, List.take_take,
    Nat.min_eq_left hk, Nat.min_eq_left hk']

/-- A prefix of a longer list that has no element of the part that was added is a prefix of the
shorter one. -/
lemma prefix_of_not_mem {l0 : List ε} (h : l <+: l0) (h' : l' <+: l0)
    (hnot : ∀ x ∈ l0.drop l.length, x ∉ l') : l' <+: l := by
  rcases le_or_gt l'.length l.length with hlen | hlen
  · exact List.prefix_of_prefix_length_le h' h hlen
  · have hx : l'[l.length] ∈ l0.drop l.length := by
      obtain ⟨r, rfl⟩ := h
      obtain ⟨r', hr'⟩ := h'
      rw [List.drop_left]
      refine List.mem_of_getElem? (i := 0) ?_
      have : (l ++ r)[l.length]? = some l'[l.length] := by
        rw [← hr', List.getElem?_append_left hlen, List.getElem?_eq_getElem hlen]
      rwa [List.getElem?_append_right le_rfl, Nat.sub_self] at this
    exact absurd (List.getElem_mem hlen) (hnot _ hx)

/-- **Two lists split at a position**: they agree up to it and nowhere further. -/
lemma exists_split (l l' : List ε) : ∃ m, m ≤ l.length ∧ m ≤ l'.length ∧ l.take m = l'.take m ∧
    ∀ p, p ≤ l.length → p ≤ l'.length → l.take p = l'.take p → p ≤ m := by
  induction l generalizing l' with
  | nil => exact ⟨0, Nat.zero_le _, Nat.zero_le _, rfl, fun p hp _ _ => hp⟩
  | cons x l ih =>
    cases l' with
    | nil => exact ⟨0, Nat.zero_le _, Nat.zero_le _, rfl, fun p _ hp _ => hp⟩
    | cons y l' =>
      by_cases hxy : x = y
      · obtain ⟨m, h1, h2, h3, h4⟩ := ih l'
        refine ⟨m + 1, Nat.succ_le_succ h1, Nat.succ_le_succ h2, ?_, ?_⟩
        · rw [List.take_succ_cons, List.take_succ_cons, hxy, h3]
        · intro p hp hp' heq
          cases p with
          | zero => exact Nat.zero_le _
          | succ p =>
            rw [List.take_succ_cons, List.take_succ_cons, List.cons.injEq] at heq
            exact Nat.succ_le_succ (h4 p (Nat.le_of_succ_le_succ hp) (Nat.le_of_succ_le_succ hp')
              heq.2)
      · refine ⟨0, Nat.zero_le _, Nat.zero_le _, rfl, fun p _ _ heq => ?_⟩
        cases p with
        | zero => exact le_rfl
        | succ p =>
          rw [List.take_succ_cons, List.take_succ_cons, List.cons.injEq] at heq
          exact absurd heq.1 hxy

end Prefix

/-! ## Memberships set by a log -/

/-- **What replication knows of an entry**: its term and the membership it sets; and the
membership before the first entry. -/
structure Scheme (ι ε : Type*) where
  term : ε → ℕ
  change : ε → Option (Membership ι)
  base : List ι

variable {e : ε} {Q : Set ι} {i : ℕ}

namespace Scheme

variable (P : Scheme ι ε)

/-- The membership in effect: the last one the log sets, committed or not. -/
def conf (l : List ε) : Membership ι := (l.filterMap P.change).getLast?.getD (.simple P.base)

/-- The term of the last entry. -/
def lastTerm (l : List ε) : ℕ := (l.getLast?.map P.term).getD 0

/-- The first log is at least as up to date as the second. -/
def UpToDate (l l' : List ε) : Prop :=
  P.lastTerm l' < P.lastTerm l ∨ P.lastTerm l' = P.lastTerm l ∧ l'.length ≤ l.length

lemma conf_concat_none {l : List ε} (h : P.change e = none) : P.conf (l ++ [e]) = P.conf l := by
  simp [conf, h]

lemma conf_concat_some {l : List ε} {c : Membership ι} (h : P.change e = some c) :
    P.conf (l ++ [e]) = c := by
  simp [conf, h]

lemma take_concat {l : List ε} {n : ℕ} (h : l[n]? = some e) : l.take (n + 1) = l.take n ++ [e] := by
  obtain ⟨hn, rfl⟩ := List.getElem?_eq_some_iff.mp h
  exact List.take_succ_eq_append_getElem hn

/-- The memberships a log sets follow one another: a transition starts at the settled membership
in effect, and a settled membership ends a transition. -/
def Chained (l : List ε) : Prop :=
  (∀ i e x y, l[i]? = some e → P.change e = some (.joint x y) → P.conf (l.take i) = .simple x) ∧
    ∀ i e y, l[i]? = some e → P.change e = some (.simple y) →
      ∃ x, P.conf (l.take i) = .joint x y

/-- After position `m` no transition is both started and ended. -/
def OpenAfter (l : List ε) (m : ℕ) : Prop :=
  ∀ i e y, m ≤ i → l[i]? = some e → P.change e = some (.simple y) →
    ∀ p e', m ≤ p → p < i → l[p]? = some e' → P.change e' = none

/-- **The voters that every membership after a position needs**, as long as no transition is both
started and ended there.

**Proof sketch.** Going through the log from `m` on, the membership stays the one at `m`, or it is
the settled target of that one, or a transition that starts from the target. -/
lemma majority_of_openAfter {l : List ε} {m : ℕ} (hm : m ≤ l.length) (hchain : P.Chained l)
    (hopen : P.OpenAfter l m) (hQ : (P.conf l).IsQuorum Q) :
    Majority (P.conf (l.take m)).target Q := by
  set x := (P.conf (l.take m)).target with hx
  have hcases : ∀ n, m ≤ n → n ≤ l.length → P.conf (l.take n) = P.conf (l.take m) ∨
      (∃ p e', m ≤ p ∧ p < n ∧ l[p]? = some e' ∧ P.change e' ≠ none) ∧
        (P.conf (l.take n) = .simple x ∨ ∃ y, P.conf (l.take n) = .joint x y) := by
    intro n hmn
    induction n, hmn using Nat.le_induction with
    | base => exact fun _ => .inl rfl
    | succ n hmn ih =>
      intro hn
      obtain ⟨e, he⟩ : ∃ e, l[n]? = some e := ⟨l[n], List.getElem?_eq_getElem hn⟩
      have ih := ih (by omega)
      rw [take_concat he]
      cases hc : P.change e with
      | none =>
        rw [P.conf_concat_none hc]
        refine ih.imp_right fun h => ⟨?_, h.2⟩
        obtain ⟨p, e', h1, h2, h3⟩ := h.1
        exact ⟨p, e', h1, by omega, h3⟩
      | some c =>
        rw [P.conf_concat_some hc]
        refine .inr ⟨⟨n, e, hmn, by omega, he, by simp [hc]⟩, ?_⟩
        cases c with
        | joint x' y =>
          have hsimple := hchain.1 n e x' y he hc
          suffices x' = x from .inr ⟨y, by rw [this]⟩
          rcases ih with h | ⟨-, h | ⟨y', h⟩⟩
          · rw [hx, ← h, hsimple, Membership.target]
          · rw [hsimple, Membership.simple.injEq] at h
            exact h
          · rw [hsimple] at h
            cases h
        | simple y =>
          obtain ⟨x', hjoint⟩ := hchain.2 n e y he hc
          rcases ih with h | ⟨⟨p, e', hp, hpn, he', hne⟩, -⟩
          · left
            rw [hx, ← h, hjoint, Membership.target]
          · exact absurd (hopen n e y hmn he hc p e' hp hpn he') hne
  have hlast := hcases l.length hm le_rfl
  rw [List.take_length] at hlast
  rcases hlast with h | ⟨-, h | ⟨y, h⟩⟩
  · rw [hx, ← h]
    exact hQ.target
  · rw [h] at hQ
    exact hQ
  · rw [h] at hQ
    exact hQ.1

/-- **Quorums of two memberships meet** when the logs split at a position after which neither both
starts and ends a transition. -/
lemma quorums_meet {l l' : List ε} {m : ℕ} (hm : m ≤ l.length) (hm' : m ≤ l'.length)
    (heq : l.take m = l'.take m) (hchain : P.Chained l) (hchain' : P.Chained l')
    (hopen : P.OpenAfter l m) (hopen' : P.OpenAfter l' m) {Q' : Set ι} (hQ : (P.conf l).IsQuorum Q)
    (hQ' : (P.conf l').IsQuorum Q') : ∃ v, v ∈ Q ∧ v ∈ Q' := by
  have h := P.majority_of_openAfter hm hchain hopen hQ
  have h' := P.majority_of_openAfter hm' hchain' hopen' hQ'
  rw [← heq] at h'
  obtain ⟨v, -, hv⟩ := h.inter h'
  exact ⟨v, hv⟩

end Scheme

/-! ## Histories -/

/-- A vote: for whom, with which log, and the last term whose leader the voter had followed. -/
structure Ballot (ι ε : Type*) where
  cand : ι
  log : List ε
  synced : ℕ

/-- **The record of a group of nodes**, by term. `commits t k j` says that the leader of term `t`
found its log committed up to `k` when the log had length `j`. -/
structure History (ι ε : Type*) where
  campaign : ℕ → ι → Option (List ε)
  ballot : ℕ → ι → Option (Ballot ι ε)
  leader : ℕ → Option ι
  llog : ℕ → List ε
  ack : ℕ → ι → ℕ
  commits : ℕ → ℕ → ℕ → Prop

namespace History

/-- A record that has grown. -/
structure Le (H H' : History ι ε) : Prop where
  campaign : ∀ {t n l}, H.campaign t n = some l → H'.campaign t n = some l
  ballot : ∀ {t v b}, H.ballot t v = some b → H'.ballot t v = some b
  leader : ∀ {t n}, H.leader t = some n → H'.leader t = some n
  llog : ∀ t, H.llog t <+: H'.llog t
  ack : ∀ t v, H.ack t v ≤ H'.ack t v
  commits : ∀ {t k j}, H.commits t k j → H'.commits t k j

instance : Preorder (History ι ε) where
  le := Le
  le_refl _ := ⟨id, id, id, fun _ => List.prefix_rfl, fun _ _ => le_rfl, id⟩
  le_trans _ _ _ h h' := ⟨h'.campaign ∘ h.campaign, h'.ballot ∘ h.ballot, h'.leader ∘ h.leader,
    fun t => (h.llog t).trans (h'.llog t), fun t v => (h.ack t v).trans (h'.ack t v),
    h'.commits ∘ h.commits⟩

variable (P : Scheme ι ε) (H : History ι ε)

/-- **A log all of whose prefixes come from leaders**: up to an entry of term `t` it is the log of
the leader of term `t`. -/
def Sourced (l : List ε) : Prop :=
  ∀ i e, l[i]? = some e → (∃ n, H.leader (P.term e) = some n) ∧
    l.take (i + 1) <+: H.llog (P.term e)

/-- The nodes that voted for `n` before they followed a leader of the term. -/
def freshVotes (t : ℕ) (n : ι) : Set ι :=
  {v | ∃ b, H.ballot t v = some b ∧ b.cand = n ∧ b.synced < t}

/-- The nodes that voted for `n`. -/
def votes (t : ℕ) (n : ι) : Set ι := {v | ∃ b, H.ballot t v = some b ∧ b.cand = n}

/-- The log of the leader of term `t` up to `k` is in the log of every leader of a term from
`t + 1` to `u`. -/
def Carried (t k u : ℕ) : Prop :=
  ∀ s, t < s → s ≤ u → (∃ n, H.leader s = some n) → (H.llog t).take k <+: H.llog s

/-- Up to `c` the log is committed, by a leader of a term up to `t`. -/
def Settled (t c : ℕ) (l : List ε) : Prop :=
  c ≤ l.length ∧ (c = 0 ∨ ∃ t₀ k j, t₀ ≤ t ∧ H.commits t₀ k j ∧ c ≤ k ∧ l.take c <+: H.llog t₀)

/-- A log is committed, by a leader of an earlier term or by the leader of term `t` when its own log
was no longer than `i`. -/
def CommittedBefore (t i : ℕ) (l : List ε) : Prop :=
  ∃ t₀ k j, t₀ ≤ t ∧ (t₀ = t → j ≤ i) ∧ H.commits t₀ k j ∧ l.length ≤ k ∧ l <+: H.llog t₀

end History

/-- **What a history satisfies.** -/
structure Sound (P : Scheme ι ε) (H : History ι ε) : Prop where
  /-- A campaign is for a later term than any entry of the log. -/
  campaign : ∀ {t n l}, H.campaign t n = some l → 0 < t ∧ (∀ e ∈ l, P.term e < t) ∧ H.Sourced P l
  /-- A vote goes to a campaign with a log at least as up to date. -/
  ballot : ∀ {t v b}, H.ballot t v = some b → b.synced ≤ t ∧ H.Sourced P b.log ∧
    ∃ l, H.campaign t b.cand = some l ∧ P.UpToDate l b.log
  /-- The leader a voter had followed was elected. -/
  followed : ∀ {t v b}, H.ballot t v = some b → b.synced = 0 ∨ ∃ n, H.leader b.synced = some n
  /-- A leader has a quorum of votes, and adds only entries of its term to its log. -/
  elected : ∀ {t n}, H.leader t = some n → ∃ l, H.campaign t n = some l ∧ l <+: H.llog t ∧
    (∀ e ∈ (H.llog t).drop l.length, P.term e = t) ∧ (P.conf l).IsQuorum (H.freshVotes t n)
  /-- A term without a leader has no log. -/
  idle : ∀ {t}, H.leader t = none → H.llog t = []
  ack : ∀ t v, H.ack t v ≤ (H.llog t).length
  /-- A voter still has what it acknowledged, if the leaders it followed since had it. -/
  kept : ∀ {t t' v b k}, H.ballot t' v = some b → t < t' → k ≤ H.ack t v →
    H.Carried t k b.synced → (H.llog t).take k <+: b.log
  /-- A leader commits an entry of its own term that a quorum acknowledged. -/
  commits : ∀ {t k j}, H.commits t k j → (∃ n, H.leader t = some n) ∧ k ≤ j ∧
    j ≤ (H.llog t).length ∧ (∃ i e, k = i + 1 ∧ (H.llog t)[i]? = some e ∧ P.term e = t) ∧
    (P.conf ((H.llog t).take j)).IsQuorum {v | k ≤ H.ack t v}
  /-- A leader starts a transition at the settled membership in effect. -/
  joint : ∀ {t i e x y}, (H.llog t)[i]? = some e → P.term e = t →
    P.change e = some (.joint x y) → P.conf ((H.llog t).take i) = .simple x
  /-- A leader ends a transition once it is committed. -/
  simple : ∀ {t i e y}, (H.llog t)[i]? = some e → P.term e = t → P.change e = some (.simple y) →
    (∃ x, P.conf ((H.llog t).take i) = .joint x y) ∧
      ∀ p e', p < i → (H.llog t)[p]? = some e' → P.change e' ≠ none →
        H.CommittedBefore t i ((H.llog t).take (p + 1))

/-! ## Logs of leaders -/

section Logs

variable {P : Scheme ι ε} {H H' : History ι ε} {l l' : List ε} {t u k : ℕ}

lemma Sourced.of_take (h : H.Sourced P l) (hl : l' <+: l) : H.Sourced P l' := by
  intro i e he
  obtain ⟨hi, rfl⟩ := List.getElem?_eq_some_iff.mp he
  obtain ⟨r, rfl⟩ := hl
  have hie : (l' ++ r)[i]? = some l'[i] := by rw [List.getElem?_append_left hi, he]
  have := h i _ hie
  rwa [List.take_append_of_le_length hi] at this

lemma CommittedBefore.mono {i' : ℕ} (h : H.CommittedBefore t i l) (hle : H ≤ H') (hi : i ≤ i') :
    H'.CommittedBefore t i' l := by
  obtain ⟨t0, k, j, ht0, hj, hcom, hlen, hpre⟩ := h
  exact ⟨t0, k, j, ht0, fun h => (hj h).trans hi, hle.commits hcom, hlen, hpre.trans (hle.llog t0)⟩

lemma Sourced.mono (h : H.Sourced P l) (hle : H ≤ H') : H'.Sourced P l := fun i e he =>
  ⟨(h i e he).1.imp fun _ hn => hle.leader hn, (h i e he).2.trans (hle.llog _)⟩

variable {e' : ε}

/-- **Log matching**: sourced logs with an entry of one term at one position agree up to it. -/
theorem Sourced.agree (h : H.Sourced P l) (h' : H.Sourced P l') (he : l[i]? = some e)
    (he' : l'[i]? = some e') (hterm : P.term e = P.term e') : l.take (i + 1) = l'.take (i + 1) := by
  have h1 := (h i e he).2
  have h2 := (h' i e' he').2
  rw [← hterm] at h2
  have hi := (List.getElem?_eq_some_iff.mp he).1
  have hi' := (List.getElem?_eq_some_iff.mp he').1
  have h3 := take_eq_of_take h1 hi
  have h4 := take_eq_of_take h2 hi'
  rw [← h3, ← h4]

variable (hH : Sound P H)

include hH

lemma Sound.exists_leader (he : e ∈ H.llog t) : ∃ n, H.leader t = some n := by
  cases hn : H.leader t with
  | none =>
    rw [hH.idle hn] at he
    cases he
  | some n => exact ⟨n, rfl⟩

lemma Sound.term_le (he : e ∈ H.llog t) : P.term e ≤ t := by
  obtain ⟨n, hn⟩ := hH.exists_leader he
  obtain ⟨l0, hl0, hpre, hown, -⟩ := hH.elected hn
  obtain ⟨r, hr⟩ := hpre
  have hdrop : (H.llog t).drop l0.length = r := by rw [← hr, List.drop_left]
  rw [← hr, List.mem_append] at he
  rcases he with he | he
  · exact (hH.campaign hl0).2.1 e he |>.le
  · exact (hown e (hdrop ▸ he)).le

lemma Sound.sourced_llog (hu : ∃ n, H.leader t = some n) : H.Sourced P (H.llog t) := by
  intro i e he
  obtain ⟨n, hn⟩ := hu
  obtain ⟨l0, hl0, hpre, hown, -⟩ := hH.elected hn
  rcases Nat.lt_or_ge i l0.length with hi | hi
  · -- an entry the leader was elected with
    have he0 : l0[i]? = some e := by
      obtain ⟨r, hr⟩ := hpre
      rwa [← hr, List.getElem?_append_left hi] at he
    have := (hH.campaign hl0).2.2 i e he0
    rwa [take_eq_of_prefixes List.prefix_rfl hpre
      (List.getElem?_eq_some_iff.mp he).1 hi]
  · have hterm : P.term e = t := by
      refine hown e (List.mem_of_getElem? (i := i - l0.length) ?_)
      rw [List.getElem?_drop, Nat.add_sub_cancel' hi, he]
    rw [hterm]
    exact ⟨⟨n, hn⟩, List.take_prefix _ _⟩

lemma Sound.term_mono (h : H.Sourced P l) {i' : ℕ} (hi : i ≤ i') (he : l[i]? = some e)
    (he' : l[i']? = some e') : P.term e ≤ P.term e' := by
  obtain ⟨-, hpre⟩ := h i' e' he'
  refine hH.term_le (hpre.subset (List.mem_of_getElem? (i := i) ?_))
  rw [List.getElem?_take_of_lt (by omega), he]

lemma Sound.le_lastTerm (h : H.Sourced P l) (he : l[i]? = some e) : P.term e ≤ P.lastTerm l := by
  have hi := (List.getElem?_eq_some_iff.mp he).1
  have hlast : l[l.length - 1]? = l.getLast? := List.getLast?_eq_getElem?.symm
  obtain ⟨e', he'⟩ : ∃ e', l.getLast? = some e' := by
    cases hl : l.getLast? with
    | none => rw [List.getLast?_eq_none_iff.mp hl] at hi; cases hi
    | some e' => exact ⟨e', rfl⟩
  rw [he'] at hlast
  have := hH.term_mono h (by omega : i ≤ l.length - 1) he hlast
  simpa [Scheme.lastTerm, he'] using this

lemma Sound.chained (h : H.Sourced P l) : P.Chained l := by
  have hown : ∀ i e, l[i]? = some e → (H.llog (P.term e))[i]? = some e ∧
      (H.llog (P.term e)).take i = l.take i := by
    intro i e he
    have hi := (List.getElem?_eq_some_iff.mp he).1
    have heq := take_eq_of_take (h i e he).2 hi
    exact ⟨by rw [getElem?_eq_of_take_eq heq (Nat.lt_succ_self i), he],
      take_eq_mono heq (Nat.le_succ i)⟩
  constructor
  · intro i e x y he hc
    rw [← (hown i e he).2]
    exact hH.joint (hown i e he).1 rfl hc
  · intro i e y he hc
    rw [← (hown i e he).2]
    exact (hH.simple (hown i e he).1 rfl hc).1

lemma Sound.ended (h : H.Sourced P l) {y : List ι} (he : l[i]? = some e)
    (hc : P.change e = some (.simple y)) {p : ℕ} (hp : p < i) (he' : l[p]? = some e')
    (hne : P.change e' ≠ none) : H.CommittedBefore (P.term e) i (l.take (p + 1)) := by
  have hi := (List.getElem?_eq_some_iff.mp he).1
  have heq := take_eq_of_take (h i e he).2 hi
  have hei : (H.llog (P.term e))[i]? = some e := by
    rw [getElem?_eq_of_take_eq heq (Nat.lt_succ_self i), he]
  have hep : (H.llog (P.term e))[p]? = some e' := by
    rw [getElem?_eq_of_take_eq heq (by omega), he']
  rw [← take_eq_mono heq (show p + 1 ≤ i + 1 by omega)]
  exact (hH.simple hei rfl hc).2 p e' hp hep hne

lemma CommittedBefore.take_eq (l' : List ε) {p : ℕ} (h : H.CommittedBefore t i (l.take p))
    (hp : p ≤ l.length)
    (hl' : ∀ t0 k j, t0 ≤ t → (t0 = t → j ≤ i) → H.commits t0 k j → (H.llog t0).take k <+: l') :
    p ≤ l'.length ∧ l'.take p = l.take p := by
  obtain ⟨t0, k, j, ht0, hj, hcom, hlen, hpre⟩ := h
  rw [List.length_take_of_le hp] at hlen
  have hin := hl' t0 k j ht0 hj hcom
  have hk := (hH.commits hcom).2.1.trans (hH.commits hcom).2.2.1
  refine ⟨hlen.trans (le_length_of_take hin hk), ?_⟩
  rw [take_eq_mono (take_eq_of_take hin hk) hlen, take_eq_of_take hpre hp]

end Logs

/-! ## Leader completeness -/

section Complete

variable {P : Scheme ι ε} {H : History ι ε} (hH : Sound P H)

include hH

/-- **One vote carries a committed prefix** from a voter that acknowledged it to the log of the
candidate.

**Proof sketch.** The voter still has the prefix, so its last term is at least `t`. A candidate
whose last term is `t` has a longer prefix of the same leader's log; otherwise the last entry of
the candidate belongs to a later leader, which was elected with the prefix. -/
lemma Sound.carry {t T k : ℕ} {v : ι} {b : Ballot ι ε} {l : List ε} (hk : k = i + 1)
    (he : (H.llog t)[i]? = some e) (hterm : P.term e = t) (ht : ∃ n, H.leader t = some n)
    (hv : k ≤ H.ack t v) (hb : H.ballot T v = some b) (htT : t < T)
    (hl : H.campaign T b.cand = some l) (hsync : H.Carried t k b.synced)
    (hlater : ∀ s n lₛ, t < s → s < T → H.leader s = some n → H.campaign s n = some lₛ → (H.llog t).take k <+: lₛ)
    : (H.llog t).take k <+: l := by
  have hkept := hH.kept hb htT hv hsync
  obtain ⟨-, hsrc, l', hl', hup⟩ := hH.ballot hb
  obtain rfl : l' = l := by rw [hl] at hl'; exact (Option.some.inj hl').symm
  obtain ⟨-, hterms, hlsrc⟩ := hH.campaign hl
  have hklen : k ≤ (H.llog t).length := hv.trans (hH.ack t v)
  have hkb := take_eq_of_take hkept hklen
  have hkblen := le_length_of_take hkept hklen
  -- the last term of the voter is at least `t`, and so is the last term of the candidate
  have heb : b.log[i]? = some e := by rw [getElem?_eq_of_take_eq hkb (by omega), he]
  have htb : t ≤ P.lastTerm b.log := hterm ▸ hH.le_lastTerm hsrc heb
  have hpos : 0 < t := by
    obtain ⟨n, hn⟩ := ht
    obtain ⟨l0, hl0, -⟩ := hH.elected hn
    exact (hH.campaign hl0).1
  obtain ⟨e', he', heterm⟩ : ∃ e', l'[l'.length - 1]? = some e' ∧ P.term e' = P.lastTerm l' := by
    have hlast : l'.getLast? = l'[l'.length - 1]? := List.getLast?_eq_getElem?
    cases h : l'.getLast? with
    | none =>
      have : P.lastTerm l' = 0 := by simp [Scheme.lastTerm, h]
      unfold Scheme.UpToDate at hup
      omega
    | some e' => exact ⟨e', by rw [← hlast, h], by simp [Scheme.lastTerm, h]⟩
  have hlpos := (List.getElem?_eq_some_iff.mp he').1
  obtain ⟨⟨n', hn'⟩, hpre⟩ := hlsrc _ e' he'
  rw [Nat.sub_add_cancel (by omega), List.take_length, heterm] at hpre
  rw [heterm] at hn'
  have hcase : t < P.lastTerm l' ∨ t = P.lastTerm l' ∧ b.log.length ≤ l'.length := by
    unfold Scheme.UpToDate at hup
    omega
  rcases hcase with hlt | ⟨heq, hlen⟩
  · -- the last entry belongs to a later leader
    obtain ⟨lₛ, hlₛ, hpreₛ, -⟩ := hH.elected hn'
    have hsT : P.lastTerm l' < T := heterm ▸ hterms e' (List.mem_of_getElem? he')
    refine (hlater _ n' lₛ hlt hsT hn' hlₛ).trans ?_
    refine List.prefix_of_prefix_length_le hpreₛ hpre ?_
    by_contra hlen
    have hin := List.prefix_of_prefix_length_le hpre hpreₛ (by omega)
    have := (hH.campaign hlₛ).2.1 e' (hin.subset (List.mem_of_getElem? he'))
    omega
  · -- the candidate has a longer prefix of the same log
    rw [← heq] at hpre
    rw [take_eq_of_prefixes List.prefix_rfl hpre hklen (hkblen.trans hlen)]
    exact List.take_prefix _ _

/-- **A winner has what was committed before**, if all earlier leaders have.

**Proof sketch.** Compare the log of the committing leader at that time with the log of the winner
and let them split at `m < k`. Neither both starts and ends a transition after `m`: a transition
that is ended was committed, so by induction, on the term and then on the length of the log at the
commit, it is in the other log too. Hence the two quorums meet, and one vote carries the
prefix. -/
lemma Sound.winner_complete {T : ℕ} {c : ι} {l : List ε} (hl : H.campaign T c = some l)
    (hQ : (P.conf l).IsQuorum Q)
    (hvotes : ∀ v ∈ Q, ∃ b, H.ballot T v = some b ∧ b.cand = c ∧ (b.synced < T ∨ ∀ t k j, t < T → H.commits t k j → (H.llog t).take k <+: H.llog T))
    (hearlier : ∀ s n lₛ, s < T → H.leader s = some n → H.campaign s n = some lₛ → ∀ t k j, t < s → H.commits t k j → (H.llog t).take k <+: lₛ)
    (t : ℕ) : ∀ j k, t < T → H.commits t k j → (H.llog t).take k <+: l := by
  induction t using Nat.strong_induction_on with
  | _ t iht =>
  intro j
  induction j using Nat.strong_induction_on with
  | _ j ihj =>
  intro k htT hcom
  obtain ⟨ht, hkj, hjlen, ⟨i0, e0, hk, he0, hterm0⟩, hquorum⟩ := hH.commits hcom
  obtain ⟨-, hterms, hlsrc⟩ := hH.campaign hl
  have hsrc := hH.sourced_llog ht
  set lt := (H.llog t).take j with hlt
  have hltsrc : H.Sourced P lt := Sourced.of_take hsrc <| List.take_prefix _ _
  have hltlen : lt.length = j := List.length_take_of_le hjlen
  obtain ⟨m, hm, hm', heq, hmax⟩ := exists_split lt l
  have hsub : ∀ n, n ≤ j → lt.take n = (H.llog t).take n := fun n hn => by
    rw [List.take_take, Nat.min_eq_left hn]
  -- logs that agree with the leader's log beyond the split do not exist
  have hnot : ∀ p, p ≤ j → p ≤ l.length → l.take p = (H.llog t).take p → p ≤ m := by
    intro p hp hpl hpe
    exact hmax p (by omega) hpl (by rw [hsub p hp, hpe])
  rcases Nat.lt_or_ge m k with hmk | hmk
  swap
  · rw [← hsub k hkj, take_eq_mono heq hmk]
    exact List.take_prefix _ _
  have hopen : P.OpenAfter lt m := by
    intro i e y hmi he hc p e' hmp hpi he'
    by_contra hne
    have hi : i < j := hltlen ▸ (List.getElem?_eq_some_iff.mp he).1
    have hle : P.term e ≤ t := hH.term_le (List.mem_of_mem_take (List.mem_of_getElem? he))
    obtain ⟨hlen, hpe⟩ := CommittedBefore.take_eq hH l (hH.ended hltsrc he hc hpi he' hne)
      (by omega) fun t0 k0 j0 ht0 hj0 hcom0 => by
        rcases Nat.lt_or_ge t0 t with h | h
        · exact iht _ h j0 k0 (by omega) hcom0
        · obtain rfl : t0 = t := by omega
          exact ihj j0 (by have := hj0 (by omega); omega) k0 htT hcom0
    have := hmax (p + 1) (by omega) hlen hpe.symm
    omega
  have hopen' : P.OpenAfter l m := by
    intro i e y hmi he hc p e' hmp hpi he'
    by_contra hne
    have hilen := (List.getElem?_eq_some_iff.mp he).1
    have hsrc1 := take_eq_of_take (hlsrc i e he).2 hilen
    obtain ⟨n1, hn1⟩ := (hlsrc i e he).1
    obtain ⟨l1, hl1, hpre1, -⟩ := hH.elected hn1
    rcases Nat.lt_trichotomy (P.term e) t with h | h | h
    · -- the transition was committed before term `t`, so the leader of `t` has it
      obtain ⟨n, hn⟩ := ht
      obtain ⟨l0, hl0, hpre0, -⟩ := hH.elected hn
      obtain ⟨-, hpe⟩ := CommittedBefore.take_eq hH _ (hH.ended hlsrc he hc hpi he' hne)
        (by omega) fun t0 k0 j0 ht0 _ hcom0 =>
          (hearlier t n l0 htT hn hl0 t0 k0 j0 (by omega) hcom0).trans hpre0
      rcases Nat.lt_or_ge p j with hpj | hpj
      · have := hnot (p + 1) hpj (by omega) hpe.symm
        omega
      · have := hnot j le_rfl (by omega) (take_eq_mono hpe.symm (by omega))
        omega
    · -- both logs are prefixes of the log of one leader
      rw [h] at hsrc1
      rcases Nat.lt_or_ge i j with hij | hij
      · have := hnot (i + 1) hij hilen hsrc1.symm
        omega
      · have := hnot j le_rfl (by omega) (take_eq_mono hsrc1.symm (by omega))
        omega
    · -- the leader that ended the transition was elected with the prefix
      have heT := hterms e (List.mem_of_getElem? he)
      have hin := (hearlier _ n1 l1 heT hn1 hl1 t k j h hcom).trans hpre1
      have h1 := take_eq_of_take hin (hkj.trans hjlen)
      rcases Nat.lt_or_ge (i + 1) k with hik | hik
      · have := hnot (i + 1) (by omega) hilen
          (hsrc1.symm.trans (take_eq_mono h1 (by omega)))
        omega
      · have := hnot k hkj (by omega) ((take_eq_mono hsrc1 hik).symm.trans h1)
        omega
  obtain ⟨v, hv, hvQ⟩ := P.quorums_meet hm hm' heq (hH.chained hltsrc) (hH.chained hlsrc) hopen
    hopen' hquorum hQ
  obtain ⟨b, hb, hbc, hsync⟩ := hvotes v hvQ
  rw [← hbc] at hl
  refine hH.carry hk he0 hterm0 ht hv hb htT hl ?_ ?_
  · intro s hs hsb ⟨n, hn⟩
    obtain ⟨lₛ, hlₛ, hpreₛ, -⟩ := hH.elected hn
    rcases Nat.lt_or_ge s T with hsT | hsT
    · exact (hearlier s n lₛ hsT hn hlₛ t k j hs hcom).trans hpreₛ
    · have hbT := (hH.ballot hb).1
      obtain rfl : s = T := by omega
      rcases hsync with h | h
      · omega
      · exact h t k j htT hcom
  · intro s n lₛ hs hsT hn hlₛ
    exact hearlier s n lₛ hsT hn hlₛ t k j hs hcom

/-- **Leader completeness**: a leader is elected with everything committed in earlier terms. -/
theorem Sound.complete_campaign (T : ℕ) : ∀ n l, H.leader T = some n → H.campaign T n = some l →
    ∀ t k j, t < T → H.commits t k j → (H.llog t).take k <+: l := by
  induction T using Nat.strong_induction_on with
  | _ T ih =>
  intro n l hn hl t k j htT hcom
  obtain ⟨l', hl', -, -, hquorum⟩ := hH.elected hn
  obtain rfl : l' = l := by rw [hl] at hl'; exact (Option.some.inj hl').symm
  refine hH.winner_complete hl hquorum ?_ ?_ t j k htT hcom
  · rintro v ⟨b, hb, hbc, hsync⟩
    exact ⟨b, hb, hbc, .inl hsync⟩
  · intro s n' lₛ hs hn' hlₛ t' k' j' ht' hcom'
    exact ih s hs n' lₛ hn' hlₛ t' k' j' ht' hcom'

/-- What was committed in one term is in the log of every later leader. -/
theorem Sound.complete {t T k j : ℕ} (hT : ∃ n, H.leader T = some n) (htT : t < T)
    (hcom : H.commits t k j) : (H.llog t).take k <+: H.llog T := by
  obtain ⟨n, hn⟩ := hT
  obtain ⟨l, hl, hpre, -⟩ := hH.elected hn
  exact (hH.complete_campaign T n l hn hl t k j htT hcom).trans hpre

/-- **Election safety**: a node with a quorum of votes in a term that has a leader is that
leader.

**Proof sketch.** Both logs have everything committed before, so neither both starts and ends a
transition after they split; the two quorums of votes meet, and the node they share voted
once. -/
theorem Sound.unique_winner {T : ℕ} {n c : ι} {l : List ε} (hn : H.leader T = some n)
    (hl : H.campaign T c = some l) (hQ : (P.conf l).IsQuorum (H.votes T c)) : c = n := by
  obtain ⟨l0, hl0, hpre0, -, hquorum⟩ := hH.elected hn
  have hin0 := hH.complete_campaign T n l0 hn hl0
  have hin := hH.winner_complete hl hQ (fun v ⟨b, hb, hbc⟩ => ⟨b, hb, hbc, .inr fun t k j ht hcom =>
      (hin0 t k j ht hcom).trans hpre0⟩)
    (fun s n' lₛ _ hn' hlₛ t k j ht hcom => hH.complete_campaign s n' lₛ hn' hlₛ t k j ht hcom)
  obtain ⟨m, hm, hm', heq, hmax⟩ := exists_split l0 l
  -- a log with everything committed before has the transitions the other one ended
  have hopen : ∀ l1 l2, H.Sourced P l1 → (∀ e ∈ l1, P.term e < T) →
      (∀ t j k, t < T → H.commits t k j → (H.llog t).take k <+: l2) →
      (∀ p, p ≤ l1.length → p ≤ l2.length → l1.take p = l2.take p → p ≤ m) →
      P.OpenAfter l1 m := by
    intro l1 l2 hsrc hterms hcomm hmax i e y hmi he hc p e' hmp hpi he'
    by_contra hne
    have hi := (List.getElem?_eq_some_iff.mp he).1
    have heT := hterms e (List.mem_of_getElem? he)
    obtain ⟨hlen, hpe⟩ := CommittedBefore.take_eq hH l2 (hH.ended hsrc he hc hpi he' hne)
      (by omega) fun t0 k0 j0 ht0 _ hcom0 => hcomm t0 j0 k0 (by omega) hcom0
    have := hmax (p + 1) (by omega) hlen hpe.symm
    omega
  obtain ⟨-, hterms0, hsrc0⟩ := hH.campaign hl0
  obtain ⟨-, hterms, hsrc⟩ := hH.campaign hl
  obtain ⟨v, ⟨b, hb, hbn, -⟩, ⟨b', hb', hbc⟩⟩ := P.quorums_meet hm hm' heq (hH.chained hsrc0)
    (hH.chained hsrc) (hopen l0 l hsrc0 hterms0 hin hmax)
    (hopen l l0 hsrc hterms (fun t j k ht hcom => hin0 t k j ht hcom)
      fun p hp hp' h => hmax p hp' hp h.symm) hquorum hQ
  rw [hb] at hb'
  obtain rfl := Option.some.inj hb'
  rw [← hbn, ← hbc]

/-! ## Committed prefixes -/

variable {t t' T c c' : ℕ} {l l' : List ε}

section

variable (h : H.Settled t c l)

include h

omit hH in
lemma History.Settled.mono {H' : History ι ε} (hle : H ≤ H') (ht : t ≤ t') : H'.Settled t' c l :=
  ⟨h.1, h.2.imp_right fun ⟨t0, k, j, h1, h2, h3, h4⟩ =>
    ⟨t0, k, j, h1.trans ht, hle.commits h2, h3, h4.trans (hle.llog t0)⟩⟩

omit hH in
lemma History.Settled.extend (hl : l <+: l') : H.Settled t c l' :=
  ⟨h.1.trans hl.length_le, h.2.imp_right fun ⟨t0, k, j, h1, h2, h3, h4⟩ =>
    ⟨t0, k, j, h1, h2, h3, by rwa [take_of_le hl h.1]⟩⟩

omit hH in
lemma History.Settled.congr (hl : l.take c <+: l') : H.Settled t c l' :=
  ⟨le_length_of_take hl h.1, h.2.imp_right fun ⟨t0, k, j, h1, h2, h3, h4⟩ =>
    ⟨t0, k, j, h1, h2, h3, by rwa [take_eq_of_take hl h.1]⟩⟩

omit hH in
lemma History.Settled.of_le (hc : c' ≤ c) : H.Settled t c' l :=
  ⟨hc.trans h.1, h.2.elim (fun h0 => .inl (by omega)) fun ⟨t0, k, j, h1, h2, h3, h4⟩ =>
    .inr ⟨t0, k, j, h1, h2, hc.trans h3, take_prefix_of_le hc h4⟩⟩

lemma Sound.settled_leader (htT : t ≤ T) (hT : ∃ n, H.leader T = some n) :
    l.take c <+: H.llog T := by
  obtain ⟨hc, rfl | ⟨t0, k, j, ht0, hcom, hck, hpre⟩⟩ := h
  · exact List.nil_prefix
  · rcases Nat.lt_or_ge t0 T with hlt | hge
    · rw [← take_eq_of_take hpre hc]
      exact take_prefix_of_le hck (hH.complete hT hlt hcom)
    · obtain rfl : t0 = T := by omega
      exact hpre

/-- **Committed prefixes agree.** -/
theorem Sound.settled_agree (h' : H.Settled t' c' l') {k : ℕ} (hk : k ≤ c) (hk' : k ≤ c')
    : l.take k = l'.take k := by
  obtain ⟨hc, rfl | ⟨t0, k0, j0, ht0, hcom, hck, hpre⟩⟩ := id h
  · obtain rfl : k = 0 := by omega
    rfl
  obtain ⟨hc', rfl | ⟨t0', k0', j0', ht0', hcom', hck', hpre'⟩⟩ := id h'
  · obtain rfl : k = 0 := by omega
    rfl
  -- both are prefixes of the log of the later of the two leaders
  obtain ⟨T, h1, h2⟩ : ∃ T, l.take c <+: H.llog T ∧ l'.take c' <+: H.llog T := by
    rcases Nat.le_total t0 t0' with hle | hle
    · exact ⟨t0', hH.settled_leader ⟨hc, .inr ⟨t0, k0, j0, le_rfl, hcom, hck, hpre⟩⟩ hle
        (hH.commits hcom').1, hpre'⟩
    · exact ⟨t0, hpre, hH.settled_leader ⟨hc', .inr ⟨t0', k0', j0', le_rfl, hcom', hck', hpre'⟩⟩
        hle (hH.commits hcom).1⟩
  have h3 := take_eq_mono (take_eq_of_take h1 hc) hk
  have h4 := take_eq_mono (take_eq_of_take h2 hc') hk'
  rw [← h3, ← h4]

end

end Complete

end Replication
