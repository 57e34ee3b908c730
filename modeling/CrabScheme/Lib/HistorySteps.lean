import CrabScheme.Lib.History

/-!
# How histories grow

The steps by which a history of replication grows: a node campaigns, a node votes, a campaign is
won, a leader adds an entry, a node acknowledges, a leader finds an entry committed. Each step
keeps a history sound under the conditions a node can check.

## Main results

* `Replication.Sound.stand` and its companions — soundness is kept.
-/

namespace Replication

open Quorum

variable {ι ε : Type*} [DecidableEq ι]

namespace History

variable (H : History ι ε)

/-- Node `n` campaigns in term `t` with log `l`. -/
def stand (t : ℕ) (n : ι) (l : List ε) : History ι ε :=
  { H with campaign := fun t' n' => if t' = t ∧ n' = n then some l else H.campaign t' n' }

/-- Node `v` votes in term `t`. -/
def cast (t : ℕ) (v : ι) (b : Ballot ι ε) : History ι ε :=
  { H with ballot := fun t' v' => if t' = t ∧ v' = v then some b else H.ballot t' v' }

/-- Node `n` wins term `t` with log `l`. -/
def elect (t : ℕ) (n : ι) (l : List ε) : History ι ε :=
  { H with
    leader := fun t' => if t' = t then some n else H.leader t'
    llog := fun t' => if t' = t then l else H.llog t' }

/-- The leader of term `t` adds an entry. -/
def extend (t : ℕ) (e : ε) : History ι ε :=
  { H with llog := fun t' => if t' = t then H.llog t ++ [e] else H.llog t' }

/-- Node `v` acknowledges the log of the leader of term `t` up to `k`. -/
def acknowledge (t : ℕ) (v : ι) (k : ℕ) : History ι ε :=
  { H with ack := fun t' v' => if t' = t ∧ v' = v then max (H.ack t v) k else H.ack t' v' }

/-- The leader of term `t` finds its log committed up to `k`, when it has length `j`. -/
def commit (t k j : ℕ) : History ι ε :=
  { H with commits := fun t' k' j' => H.commits t' k' j' ∨ t' = t ∧ k' = k ∧ j' = j }

variable {H} {t k j : ℕ} {n v : ι} {l : List ε} {b : Ballot ι ε} {e : ε}

lemma le_stand (h : H.campaign t n = none) : H ≤ H.stand t n l := by
  refine ⟨?_, id, id, fun _ => List.prefix_rfl, fun _ _ => le_rfl, id⟩
  intro t' n' l' h'
  have hne : ¬(t' = t ∧ n' = n) := by
    rintro ⟨rfl, rfl⟩
    rw [h] at h'
    cases h'
  simp only [stand, if_neg hne, h']

lemma le_cast (h : H.ballot t v = none) : H ≤ H.cast t v b := by
  refine ⟨id, ?_, id, fun _ => List.prefix_rfl, fun _ _ => le_rfl, id⟩
  intro t' v' b' h'
  have hne : ¬(t' = t ∧ v' = v) := by
    rintro ⟨rfl, rfl⟩
    rw [h] at h'
    cases h'
  simp only [cast, if_neg hne, h']

omit [DecidableEq ι] in
lemma le_elect (h : H.leader t = none) (hl : H.llog t = []) : H ≤ H.elect t n l := by
  refine ⟨id, id, ?_, ?_, fun _ _ => le_rfl, id⟩
  · intro t' n' h'
    have hne : t' ≠ t := by
      rintro rfl
      rw [h] at h'
      cases h'
    simp only [elect, if_neg hne, h']
  · intro t'
    by_cases ht : t' = t
    · rw [ht, hl]
      exact List.nil_prefix
    · simp only [elect, if_neg ht, List.prefix_rfl]

omit [DecidableEq ι] in
lemma le_extend : H ≤ H.extend t e := by
  refine ⟨id, id, id, ?_, fun _ _ => le_rfl, id⟩
  intro t'
  by_cases ht : t' = t
  · simp only [extend, ht]
    exact List.prefix_append _ _
  · simp only [extend, if_neg ht, List.prefix_rfl]

lemma le_acknowledge : H ≤ H.acknowledge t v k := by
  refine ⟨id, id, id, fun _ => List.prefix_rfl, ?_, id⟩
  intro t' v'
  by_cases h : t' = t ∧ v' = v
  · obtain ⟨rfl, rfl⟩ := h
    simp [acknowledge]
  · simp only [acknowledge, if_neg h, le_rfl]

omit [DecidableEq ι] in
lemma le_commit : H ≤ H.commit t k j :=
  ⟨id, id, id, fun _ => List.prefix_rfl, fun _ _ => le_rfl, .inl⟩

end History

variable {P : Scheme ι ε} {H : History ι ε} {t k j : ℕ} {n v : ι} {l : List ε} {b : Ballot ι ε}
variable {e : ε}

/-- **A node campaigns** for a later term than any entry of its log. -/
theorem Sound.stand (hH : Sound P H) (hnone : H.campaign t n = none) (hpos : 0 < t)
    (hterms : ∀ e ∈ l, P.term e < t) (hsrc : H.Sourced P l) : Sound P (H.stand t n l) := by
  have hle := History.le_stand (l := l) hnone
  refine ⟨?_, ?_, hH.followed, ?_, hH.idle, hH.ack, hH.kept, hH.commits, hH.joint, hH.simple⟩
  · intro t' n' l' h
    by_cases hc : t' = t ∧ n' = n
    · simp only [History.stand, if_pos hc, Option.some.injEq] at h
      rw [← h, hc.1]
      exact ⟨hpos, hterms, hsrc⟩
    · simp only [History.stand, if_neg hc] at h
      exact hH.campaign h
  · intro t' v b h
    obtain ⟨h1, h2, l', hl', hup⟩ := hH.ballot h
    exact ⟨h1, h2, l', hle.campaign hl', hup⟩
  · intro t' n' h
    obtain ⟨l', hl', hrest⟩ := hH.elected h
    exact ⟨l', hle.campaign hl', hrest⟩

/-- **A node votes**, once in a term, for a campaign with a log at least as up to date. -/
theorem Sound.cast (hH : Sound P H) (hnone : H.ballot t v = none) (hsync : b.synced ≤ t)
    (hfol : b.synced = 0 ∨ ∃ n, H.leader b.synced = some n)
    (hsrc : H.Sourced P b.log) (hl : H.campaign t b.cand = some l) (hup : P.UpToDate l b.log)
    (hkept : ∀ t0 k, t0 < t → k ≤ H.ack t0 v → H.Carried t0 k b.synced →
      (H.llog t0).take k <+: b.log) : Sound P (H.cast t v b) := by
  have hle := History.le_cast (b := b) hnone
  refine ⟨hH.campaign, ?_, ?_, ?_, hH.idle, hH.ack, ?_, hH.commits, hH.joint, hH.simple⟩
  · intro t' v' b' h
    by_cases hc : t' = t ∧ v' = v
    · simp only [History.cast, if_pos hc, Option.some.injEq] at h
      rw [← h, hc.1]
      exact ⟨hsync, hsrc, l, hl, hup⟩
    · simp only [History.cast, if_neg hc] at h
      exact hH.ballot h
  · intro t' v' b' h
    by_cases hc : t' = t ∧ v' = v
    · simp only [History.cast, if_pos hc, Option.some.injEq] at h
      rw [← h]
      exact hfol
    · simp only [History.cast, if_neg hc] at h
      exact hH.followed h
  · intro t' n' h
    obtain ⟨l', hl', hpre, hown, hQ⟩ := hH.elected h
    refine ⟨l', hl', hpre, hown, hQ.mono ?_⟩
    rintro u ⟨b', hb', hrest⟩
    exact ⟨b', hle.ballot hb', hrest⟩
  · intro t0 t' v' b' k h ht hk hcarried
    by_cases hc : t' = t ∧ v' = v
    · simp only [History.cast, if_pos hc, Option.some.injEq] at h
      obtain ⟨rfl, rfl⟩ := hc
      subst h
      exact hkept t0 k ht hk hcarried
    · simp only [History.cast, if_neg hc] at h
      exact hH.kept h ht hk hcarried

omit [DecidableEq ι] in
/-- **A campaign is won** by a quorum of votes, in a term without a leader. -/
theorem Sound.elect (hH : Sound P H) (hnone : H.leader t = none) (hl : H.campaign t n = some l)
    (hQ : (P.conf l).IsQuorum (H.freshVotes t n)) : Sound P (H.elect t n l) := by
  have hidle := hH.idle hnone
  have hle := History.le_elect (n := n) (l := l) hnone hidle
  have hsame : ∀ {t'}, t' ≠ t → (H.elect t n l).llog t' = H.llog t' := fun h => by
    simp only [History.elect, if_neg h]
  have hleader : ∀ {t'}, t' ≠ t → (H.elect t n l).leader t' = H.leader t' := fun h => by
    simp only [History.elect, if_neg h]
  have hlog : (H.elect t n l).llog t = l := by simp only [History.elect, if_pos]
  have hnoack : ∀ v, H.ack t v = 0 := fun v => by
    have := hH.ack t v
    rw [hidle] at this
    exact Nat.le_zero.mp this
  refine ⟨?_, ?_, ?_, ?_, ?_, ?_, ?_, ?_, ?_, ?_⟩
  · intro t' n' l' h
    obtain ⟨h1, h2, h3⟩ := hH.campaign h
    exact ⟨h1, h2, Sourced.mono h3 hle⟩
  · intro t' v b h
    obtain ⟨h1, h2, h3⟩ := hH.ballot h
    exact ⟨h1, Sourced.mono h2 hle, h3⟩
  · exact fun h => (hH.followed h).imp_right fun ⟨n', hn'⟩ => ⟨n', hle.leader hn'⟩
  · intro t' n' h
    by_cases ht : t' = t
    · subst ht
      obtain rfl : n = n' := by simpa [History.elect] using h
      rw [hlog]
      exact ⟨l, hl, List.prefix_rfl, by rw [List.drop_length]; exact nofun, hQ⟩
    · rw [hleader ht] at h
      rw [hsame ht]
      exact hH.elected h
  · intro t' h
    by_cases ht : t' = t
    · simp [History.elect, ht] at h
    · rw [hsame ht]
      rw [hleader ht] at h
      exact hH.idle h
  · exact fun t' v => (hH.ack t' v).trans (hle.llog t').length_le
  · intro t0 t' v b k h ht hk hcarried
    by_cases ht0 : t0 = t
    · subst ht0
      obtain rfl : k = 0 := Nat.le_zero.mp ((hnoack v) ▸ hk)
      exact List.nil_prefix
    · rw [hsame ht0]
      refine hH.kept h ht hk fun s hs hsb hlead => ?_
      have hst : s ≠ t := by
        rintro rfl
        rw [hnone] at hlead
        exact hlead.elim nofun
      have := hcarried s hs hsb (by rw [hleader hst]; exact hlead)
      rwa [hsame ht0, hsame hst] at this
  · intro t' k j h
    have hne : t' ≠ t := by
      rintro rfl
      obtain ⟨⟨n', hn'⟩, -⟩ := hH.commits h
      rw [hnone] at hn'
      cases hn'
    rw [hsame hne, hleader hne]
    exact hH.commits h
  · intro t' i e x y he hterm hc
    by_cases ht : t' = t
    · rw [ht, hlog] at he
      exact absurd (hterm.trans ht) ((hH.campaign hl).2.1 e (List.mem_of_getElem? he)).ne
    · rw [hsame ht] at he ⊢
      exact hH.joint he hterm hc
  · intro t' i e y he hterm hc
    by_cases ht : t' = t
    · rw [ht, hlog] at he
      exact absurd (hterm.trans ht) ((hH.campaign hl).2.1 e (List.mem_of_getElem? he)).ne
    · rw [hsame ht] at he ⊢
      obtain ⟨h1, hbefore⟩ := hH.simple he hterm hc
      exact ⟨h1, fun p e' hp hpe hne =>
        CommittedBefore.mono (hbefore p e' hp hpe hne) hle le_rfl⟩

omit [DecidableEq ι] in
/-- **A leader adds an entry** of its term; an entry that sets a membership starts a transition at
the settled membership in effect, or ends one that is committed. -/
theorem Sound.extend (hH : Sound P H) (ht : H.leader t = some n) (hterm : P.term e = t)
    (hjoint : ∀ x y, P.change e = some (.joint x y) → P.conf (H.llog t) = .simple x)
    (hsimple : ∀ y, P.change e = some (.simple y) → (∃ x, P.conf (H.llog t) = .joint x y) ∧
      ∀ p e', (H.llog t)[p]? = some e' → P.change e' ≠ none →
        H.CommittedBefore t (H.llog t).length ((H.llog t).take (p + 1))) :
    Sound P (H.extend t e) := by
  have hle : H ≤ H.extend t e := History.le_extend
  have hsame : ∀ {t'}, t' ≠ t → (H.extend t e).llog t' = H.llog t' := fun h => by
    simp only [History.extend, if_neg h]
  have hlog : (H.extend t e).llog t = H.llog t ++ [e] := by simp only [History.extend, if_pos]
  have htake : ∀ {t' k}, k ≤ (H.llog t').length →
      ((H.extend t e).llog t').take k = (H.llog t').take k := by
    intro t' k hk
    by_cases h : t' = t
    · rw [h, hlog, List.take_append_of_le_length (h ▸ hk)]
    · rw [hsame h]
  -- an entry was there before, or is the new one
  have hentry : ∀ {t' i e'}, ((H.extend t e).llog t')[i]? = some e' →
      i < (H.llog t').length ∨ t' = t ∧ i = (H.llog t').length ∧ e = e' := by
    intro t' i e' he'
    by_cases h : t' = t
    · grind
    · rw [hsame h] at he'
      exact .inl (List.getElem?_eq_some_iff.mp he').1
  refine ⟨?_, ?_, ?_, ?_, ?_, ?_, ?_, ?_, ?_, ?_⟩
  · intro t' n' l' h
    obtain ⟨h1, h2, h3⟩ := hH.campaign h
    exact ⟨h1, h2, Sourced.mono h3 hle⟩
  · intro t' v b h
    obtain ⟨h1, h2, h3⟩ := hH.ballot h
    exact ⟨h1, Sourced.mono h2 hle, h3⟩
  · exact fun h => (hH.followed h).imp_right fun ⟨n', hn'⟩ => ⟨n', hle.leader hn'⟩
  · intro t' n' h
    obtain ⟨l', hl', hpre, hown, hQ⟩ := hH.elected h
    refine ⟨l', hl', hpre.trans (hle.llog t'), ?_, hQ⟩
    by_cases ht' : t' = t
    · subst ht'
      rw [hlog, List.drop_append_of_le_length hpre.length_le]
      intro e' he'
      rcases List.mem_append.mp he' with he' | he'
      · exact hown e' he'
      · rw [List.mem_singleton.mp he', hterm]
    · rw [hsame ht']
      exact hown
  · intro t' h
    have hne : t' ≠ t := by
      rintro rfl
      exact absurd (h.symm.trans ht) nofun
    rw [hsame hne]
    exact hH.idle h
  · exact fun t' v => (hH.ack t' v).trans (hle.llog t').length_le
  · intro t0 t' v b k h hlt hk hcarried
    have hk0 : k ≤ (H.llog t0).length := hk.trans (hH.ack t0 v)
    rw [htake hk0]
    refine hH.kept h hlt hk fun s hs hsb hlead => ?_
    have hpre := hcarried s hs hsb hlead
    rw [htake hk0] at hpre
    by_cases hst : s = t
    · -- the new entry is of a later term than the prefix
      subst hst
      rw [hlog] at hpre
      refine prefix_of_not_mem (List.prefix_append _ [e]) hpre fun x hx hin => ?_
      rw [List.drop_left, List.mem_singleton] at hx
      have := hH.term_le (List.mem_of_mem_take hin)
      rw [hx] at this
      omega
    · rwa [hsame hst] at hpre
  · intro t' k j h
    obtain ⟨h1, h2, h3, ⟨i, e', hi, he', hterm'⟩, hQ⟩ := hH.commits h
    refine ⟨h1, h2, h3.trans (hle.llog t').length_le, ⟨i, e', hi, ?_, hterm'⟩, ?_⟩
    · obtain ⟨r, hr⟩ := hle.llog t'
      rw [← hr, List.getElem?_append_left (List.getElem?_eq_some_iff.mp he').1, he']
    · rw [htake h3]
      exact hQ
  · intro t' i e' x y he' hterm' hc
    rcases hentry he' with hi | ⟨rfl, rfl, rfl⟩
    · rw [htake hi.le]
      have := getElem?_eq_of_take_eq (htake (show i + 1 ≤ _ from hi)) (Nat.lt_succ_self i)
      exact hH.joint (this ▸ he') hterm' hc
    · rw [htake le_rfl, List.take_length]
      exact hjoint x y hc
  · intro t' i e' y he' hterm' hc
    rcases hentry he' with hi | ⟨rfl, rfl, rfl⟩
    · rw [htake hi.le]
      have hget : ∀ p, p ≤ i → ((H.extend t e).llog t')[p]? = (H.llog t')[p]? := fun p hp =>
        getElem?_eq_of_take_eq (htake (show i + 1 ≤ _ from hi)) (by omega)
      obtain ⟨h1, hbefore⟩ := hH.simple (hget i le_rfl ▸ he') hterm' hc
      refine ⟨h1, fun p e'' hp hpe hne => ?_⟩
      rw [htake (by omega)]
      exact CommittedBefore.mono (hbefore p e'' hp (hget p hp.le ▸ hpe) hne) hle le_rfl
    · rw [htake le_rfl, List.take_length]
      obtain ⟨h1, hbefore⟩ := hsimple y hc
      refine ⟨h1, fun p e'' hp hpe hne => ?_⟩
      rw [hlog, List.getElem?_append_left hp] at hpe
      rw [htake (by omega)]
      exact CommittedBefore.mono (hbefore p e'' hpe hne) hle le_rfl

/-- **A node acknowledges** the leader of the latest term it voted in, or of a later one. -/
theorem Sound.acknowledge (hH : Sound P H) (hk : k ≤ (H.llog t).length)
    (hvotes : ∀ t' b, H.ballot t' v = some b → t' ≤ t) : Sound P (H.acknowledge t v k) := by
  refine ⟨hH.campaign, hH.ballot, hH.followed, hH.elected, hH.idle, ?_, ?_, ?_, hH.joint,
    hH.simple⟩
  · intro t' v'
    by_cases h : t' = t ∧ v' = v
    · simp only [History.acknowledge, if_pos h]
      rw [h.1]
      exact Nat.max_le.mpr ⟨hH.ack t v, hk⟩
    · simp only [History.acknowledge, if_neg h]
      exact hH.ack t' v'
  · intro t0 t' v' b k' h hlt hk' hcarried
    by_cases hc : t0 = t ∧ v' = v
    · obtain ⟨rfl, rfl⟩ := hc
      exact absurd (hvotes t' b h) (by omega)
    · simp only [History.acknowledge, if_neg hc] at hk'
      exact hH.kept h hlt hk' hcarried
  · intro t' k' j' h
    obtain ⟨h1, h2, h3, h4, hQ⟩ := hH.commits h
    exact ⟨h1, h2, h3, h4, hQ.mono fun v' hv' => le_trans hv' (History.le_acknowledge.ack t' v')⟩

omit [DecidableEq ι] in
/-- **A leader finds its log committed** up to an entry of its term that a quorum acknowledged. -/
theorem Sound.commit {i : ℕ} (hH : Sound P H) (hn : H.leader t = some n) (hkj : k ≤ j)
    (hj : j ≤ (H.llog t).length) (hk : k = i + 1) (he : (H.llog t)[i]? = some e)
    (hterm : P.term e = t) (hQ : (P.conf ((H.llog t).take j)).IsQuorum {v | k ≤ H.ack t v}) :
    Sound P (H.commit t k j) := by
  refine ⟨hH.campaign, hH.ballot, hH.followed, hH.elected, hH.idle, hH.ack, hH.kept, ?_, hH.joint,
    ?_⟩
  · rintro t' k' j' (h | ⟨rfl, rfl, rfl⟩)
    · exact hH.commits h
    · exact ⟨⟨n, hn⟩, hkj, hj, ⟨i, e, hk, he, hterm⟩, hQ⟩
  · intro t' i' e' y he' hterm' hc
    obtain ⟨h1, hbefore⟩ := hH.simple he' hterm' hc
    exact ⟨h1, fun p e'' hp hpe hne =>
      CommittedBefore.mono (hbefore p e'' hp hpe hne) History.le_commit le_rfl⟩

end Replication
