import Mathlib

/-!
# Rounds of agreement on dependencies

A leaderless protocol in which every instance has a leader of its own. The leader proposes a
command with a sequence number and a set of dependencies, the other replicas answer with what they
would add, and the leader either takes its own proposal over at once, when a quorum had nothing to
add, or makes an offer of the union, which a quorum accepts first. The choice is then learned by
the others. The file has the state of all rounds, the moves, and what holds after any of them.

Messages are not part of the state. A message in flight is a *token*, one for each stage of a
round and each replica, and it is live exactly while the state still waits for it: every move
consumes at most one token and keeps the other live ones alive.

## Main results

* `Rounds.Inv.dependent` — of two chosen instances whose commands conflict, one depends on the
  other.
-/

namespace Rounds

variable {ι I κ : Type*}

/-- What is said about an instance. -/
@[ext]
structure Attributes (I : Type*) where
  seq : ℕ
  deps : Set I

instance : Preorder (Attributes I) := Preorder.lift fun a => (a.seq, a.deps)

/-- **All rounds.** `known` has the sequence numbers of the instances a replica has on record;
`answer` has what a replica has said about an instance, `counted` whose answers its leader has
counted, `accepted` who has accepted the offer, `oks` whose acceptance the leader has counted and
`learned` who knows the choice. -/
structure State (ι I κ : Type*) where
  command : I → Option κ
  known : ι → I → Option ℕ
  answer : I → ι → Option (Attributes I)
  counted : I → Finset ι
  offer : I → Option (Attributes I)
  accepted : I → Finset ι
  oks : I → Finset ι
  choice : I → Option (Attributes I)
  learned : I → Finset ι

/-- What the protocol is played with. -/
structure Protocol (ι I κ : Type*) where
  leader : I → ι
  conflict : κ → κ → Prop
  quorum : Finset ι → Prop

/-- The stages a message belongs to. -/
inductive Stage
  | ask
  | reply
  | accept
  | ok
  | commit
deriving DecidableEq

/-- **A message in flight**: its stage, its instance, and the replica that is not the leader. -/
@[ext]
structure Token (ι I : Type*) where
  stage : Stage
  inst : I
  replica : ι

variable {j : I} {v : Attributes I}

namespace State

/-- Nothing has been proposed. -/
def empty : State ι I κ :=
  ⟨fun _ => none, fun _ _ => none, fun _ _ => none, fun _ => ∅, fun _ => none, fun _ => ∅,
    fun _ => ∅, fun _ => none, fun _ => ∅⟩

/-- **The tokens that may be in flight.** -/
def Live (s : State ι I κ) (t : Token ι I) : Prop :=
  match t.stage with
  | .ask => s.command t.inst ≠ none ∧ s.answer t.inst t.replica = none
  | .reply => s.answer t.inst t.replica ≠ none ∧ t.replica ∉ s.counted t.inst
  | .accept => s.offer t.inst ≠ none ∧ t.replica ∉ s.accepted t.inst
  | .ok => t.replica ∈ s.accepted t.inst ∧ t.replica ∉ s.oks t.inst
  | .commit => s.choice t.inst ≠ none ∧ t.replica ∉ s.learned t.inst

/-- **What is settled stays settled.** -/
structure Grows (s s' : State ι I κ) : Prop where
  command : ∀ {i c}, s.command i = some c → s'.command i = some c
  answer : ∀ {i r a}, s.answer i r = some a → s'.answer i r = some a
  offer : ∀ {i o}, s.offer i = some o → s'.offer i = some o
  choice : ∀ {i v}, s.choice i = some v → s'.choice i = some v

lemma Grows.refl (s : State ι I κ) : s.Grows s := ⟨id, id, id, id⟩

lemma Grows.trans {s1 s2 s3 : State ι I κ} (h : s1.Grows s2) (h' : s2.Grows s3) : s1.Grows s3 :=
  ⟨fun hc => h'.command (h.command hc), fun ha => h'.answer (h.answer ha),
    fun ho => h'.offer (h.offer ho), fun hv => h'.choice (h.choice hv)⟩

/-! ## Moves -/

variable [DecidableEq ι] [DecidableEq I] (s : State ι I κ)

/-- The records, with one more instance on record at a replica. -/
def noted (r : ι) (i : I) (n : ℕ) : ι → I → Option ℕ :=
  Function.update s.known r (Function.update (s.known r) i (some n))

/-- A replica puts an instance on record. -/
def note (r : ι) (i : I) (n : ℕ) : State ι I κ := { s with known := s.noted r i n }

/-- The leader proposes a command. -/
def propose (i : I) (c : κ) : State ι I κ :=
  { s with command := Function.update s.command i (some c) }

/-- A replica answers, with the instance on record. -/
def reply (i : I) (r : ι) (a : Attributes I) (n : ℕ) : State ι I κ :=
  { s with
    known := s.noted r i n
    answer := Function.update s.answer i (Function.update (s.answer i) r (some a)) }

/-- The leader counts an answer. -/
def count (i : I) (r : ι) : State ι I κ :=
  { s with counted := Function.update s.counted i (insert r (s.counted i)) }

/-- The leader makes an offer. -/
def makeOffer (i : I) (o : Attributes I) : State ι I κ :=
  { s with offer := Function.update s.offer i (some o) }

/-- A replica accepts the offer. -/
def accept (i : I) (r : ι) : State ι I κ :=
  { s with accepted := Function.update s.accepted i (insert r (s.accepted i)) }

/-- The leader counts an acceptance. -/
def ok (i : I) (r : ι) : State ι I κ :=
  { s with oks := Function.update s.oks i (insert r (s.oks i)) }

/-- The leader chooses. -/
def choose (i : I) (v : Attributes I) : State ι I κ :=
  { s with choice := Function.update s.choice i (some v) }

/-- A replica learns the choice. -/
def learn (i : I) (r : ι) : State ι I κ :=
  { s with learned := Function.update s.learned i (insert r (s.learned i)) }

variable {s} {i : I} {r : ι}

lemma noted_apply (n : ℕ) (q : ι) (j : I) :
    s.noted r i n q j = if q = r ∧ j = i then some n else s.known q j := by
  unfold noted
  by_cases hq : q = r
  · subst hq
    by_cases hj : j = i <;> simp [hj]
  · simp [hq]

lemma update_of_none {α β : Type*} [DecidableEq α] {f : α → Option β} {x y : α} {v w : β}
    (hx : f x = none) (hy : f y = some v) : Function.update f x (some w) y = some v := by
  have hne : y ≠ x := by
    rintro rfl
    simp [hx] at hy
  rw [Function.update_of_ne hne, hy]

lemma reply_answer (a : Attributes I) (n : ℕ) (j : I) (q : ι) : (s.reply i r a n).answer j q =
    if j = i ∧ q = r then some a else s.answer j q := by
  unfold reply
  by_cases hj : j = i
  · subst hj
    simp [Function.update_apply]
  · simp [hj]

lemma grows_note (n : ℕ) : s.Grows (s.note r i n) := ⟨id, id, id, id⟩

omit [DecidableEq ι] in
lemma grows_propose (hi : s.command i = none) (c : κ) : s.Grows (s.propose i c) :=
  ⟨update_of_none hi, id, id, id⟩

lemma grows_reply (hr : s.answer i r = none) (a : Attributes I) (n : ℕ) :
    s.Grows (s.reply i r a n) := ⟨id, by grind [reply_answer], id, id⟩

lemma grows_count : s.Grows (s.count i r) := ⟨id, id, id, id⟩

omit [DecidableEq ι] in
lemma grows_makeOffer (hi : s.offer i = none) (o : Attributes I) : s.Grows (s.makeOffer i o) :=
  ⟨id, id, update_of_none hi, id⟩

lemma grows_accept : s.Grows (s.accept i r) := ⟨id, id, id, id⟩

lemma grows_ok : s.Grows (s.ok i r) := ⟨id, id, id, id⟩

omit [DecidableEq ι] in
lemma grows_choose (hi : s.choice i = none) (v : Attributes I) : s.Grows (s.choose i v) :=
  ⟨id, id, id, update_of_none hi⟩

lemma grows_learn : s.Grows (s.learn i r) := ⟨id, id, id, id⟩

/-! ### Tokens -/

lemma mem_update {f : I → Finset ι} {q : ι} :
    q ∈ Function.update f i (insert r (f i)) j ↔ (j = i ∧ q = r) ∨ q ∈ f j := by
  by_cases hj : j = i
  · subst hj
    simp
  · simp [hj]

variable {t : Token ι I}

attribute [local grind =] Function.update_apply

section

variable (h : s.Live t)

include h

omit [DecidableEq ι] in
lemma Live.propose (hi : s.command i = none) (c : κ) : (s.propose i c).Live t := by
  obtain ⟨st, j, q⟩ := t
  cases st <;> simp only [Live, State.propose] at h ⊢ <;> grind

lemma Live.reply (hr : s.answer i r = none) (ht : t ≠ ⟨.ask, i, r⟩) (a : Attributes I) (n : ℕ)
    : (s.reply i r a n).Live t := by
  obtain ⟨st, j, q⟩ := t
  cases st <;> simp only [Live, reply_answer] at h ⊢ <;> grind [State.reply]

lemma Live.count (ht : t ≠ ⟨.reply, i, r⟩) : (s.count i r).Live t := by
  obtain ⟨st, j, q⟩ := t
  cases st <;> simp only [Live, State.count] at h ⊢ <;> grind

omit [DecidableEq ι] in
lemma Live.makeOffer (hi : s.offer i = none) (o : Attributes I) : (s.makeOffer i o).Live t := by
  obtain ⟨st, j, q⟩ := t
  cases st <;> simp only [Live, State.makeOffer] at h ⊢ <;> grind

lemma Live.accept (ht : t ≠ ⟨.accept, i, r⟩) : (s.accept i r).Live t := by
  obtain ⟨st, j, q⟩ := t
  cases st <;> simp only [Live, State.accept] at h ⊢ <;> grind

lemma Live.ok (ht : t ≠ ⟨.ok, i, r⟩) : (s.ok i r).Live t := by
  obtain ⟨st, j, q⟩ := t
  cases st <;> simp only [Live, State.ok] at h ⊢ <;> grind

omit [DecidableEq ι] in
lemma Live.choose (hi : s.choice i = none) (v : Attributes I) : (s.choose i v).Live t := by
  obtain ⟨st, j, q⟩ := t
  cases st <;> simp only [Live, State.choose] at h ⊢ <;> grind

lemma Live.learn (ht : t ≠ ⟨.commit, i, r⟩) : (s.learn i r).Live t := by
  obtain ⟨st, j, q⟩ := t
  cases st <;> simp only [Live, State.learn] at h ⊢ <;> grind

end

end State

/-! ## The invariant -/

variable [DecidableEq ι] [DecidableEq I] (P : Protocol ι I κ)

/-- What a replica says about an instance covers the conflicting instances it has on record. -/
def Covers (s : State ι I κ) (r : ι) (i : I) (c : κ) (a : Attributes I) : Prop :=
  ∀ j d n, j ≠ i → s.command j = some d → s.known r j = some n → P.conflict c d →
    j ∈ a.deps ∧ n < a.seq

/-- A quorum has said no more than `v` about an instance. -/
def Backed (s : State ι I κ) (i : I) (v : Attributes I) : Prop :=
  ∃ Q, P.quorum Q ∧ ∀ r ∈ Q, ∃ a, s.answer i r = some a ∧ a ≤ v

/-- **What holds after any sequence of guarded moves.** -/
structure Inv (s : State ι I κ) : Prop where
  known_command : ∀ {r i n}, s.known r i = some n → ∃ c, s.command i = some c
  answer_known : ∀ {i r a}, s.answer i r = some a → ∃ n, s.known r i = some n
  answer_conflict : ∀ {i j r a b c d}, i ≠ j → s.answer i r = some a → s.answer j r = some b →
    s.command i = some c → s.command j = some d → P.conflict c d → P.conflict d c →
    i ∈ b.deps ∨ j ∈ a.deps
  counted : ∀ {i r}, r ∈ s.counted i → ∃ a, s.answer i r = some a
  unproposed : ∀ {i}, s.command i = none → s.offer i = none ∧ s.choice i = none
  unoffered : ∀ {i}, s.offer i = none → s.accepted i = ∅
  oks : ∀ {i r}, r ∈ s.oks i → r ∈ s.accepted i
  unchosen : ∀ {i}, s.choice i = none → s.learned i = ∅
  offer : ∀ {i o}, s.offer i = some o → Backed P s i o
  choice : ∀ {i v}, s.choice i = some v → Backed P s i v

variable {P}

omit [DecidableEq ι] [DecidableEq I] in
lemma Backed.grows {s s' : State ι I κ} {i : I} (h : Backed P s i v) (hs : s.Grows s')
    : Backed P s' i v := by
  obtain ⟨Q, hQ, hall⟩ := h
  refine ⟨Q, hQ, fun r hr => ?_⟩
  obtain ⟨a, ha, hle⟩ := hall r hr
  exact ⟨a, hs.answer ha, hle⟩

namespace Inv

variable {s : State ι I κ} {i : I} {r : ι}

omit [DecidableEq ι] [DecidableEq I] in
lemma empty : Inv P (State.empty : State ι I κ) where
  known_command h := by simp [State.empty] at h
  answer_known h := by simp [State.empty] at h
  answer_conflict _ h := by simp [State.empty] at h
  counted h := by simp [State.empty] at h
  unproposed _ := ⟨rfl, rfl⟩
  unoffered _ := rfl
  oks h := by simp [State.empty] at h
  unchosen _ := rfl
  offer h := by simp [State.empty] at h
  choice h := by simp [State.empty] at h

omit [DecidableEq ι] [DecidableEq I] in
lemma unanswered (h : Inv P s) (hi : s.command i = none) : s.answer i r = none := by
  by_contra hne
  obtain ⟨a, ha⟩ := Option.ne_none_iff_exists'.mp hne
  obtain ⟨n, hn⟩ := h.answer_known ha
  obtain ⟨c, hc⟩ := h.known_command hn
  simp [hi] at hc

variable {c : κ} {a : Attributes I}

lemma note (h : Inv P s) (hc : s.command i = some c) (n : ℕ) : Inv P (s.note r i n) :=
  { h with
    known_command {q j m} hm := by
      simp only [State.note, State.noted_apply] at hm ⊢
      split at hm
      · next hj => exact ⟨c, by rw [hj.2, hc]⟩
      · exact h.known_command hm
    answer_known {j q a} ha := by
      obtain ⟨m, hm⟩ := h.answer_known ha
      simp only [State.note, State.noted_apply]
      split
      · exact ⟨n, rfl⟩
      · exact ⟨m, hm⟩ }

omit [DecidableEq ι] in
lemma propose (h : Inv P s) (hi : s.command i = none) (c : κ) : Inv P (s.propose i c) := by
  have hgrows := State.grows_propose hi c
  have hold : ∀ {j d r a}, s.answer j r = some a → (s.propose i c).command j = some d →
      s.command j = some d := by
    intro j d r a ha hd
    have hj : j ≠ i := by
      rintro rfl
      simp [h.unanswered hi] at ha
    simpa [State.propose, hj] using hd
  exact
    { known_command := fun hm => (h.known_command hm).imp fun d hd => hgrows.command hd
      answer_known := h.answer_known
      answer_conflict := fun hne ha hb hc hd =>
        h.answer_conflict hne ha hb (hold ha hc) (hold hb hd)
      counted := h.counted
      unproposed := fun {j} hj => by
        have hji : j ≠ i := by
          rintro rfl
          simp [State.propose] at hj
        exact h.unproposed (by simpa [State.propose, hji] using hj)
      unoffered := h.unoffered
      oks := h.oks
      unchosen := h.unchosen
      offer := fun ho => (h.offer ho).grows hgrows
      choice := fun hv => (h.choice hv).grows hgrows }

lemma reply_cases {q : ι} {b : Attributes I} {n : ℕ} (hb : (s.reply i r a n).answer j q = some b) :
    (j = i ∧ q = r ∧ b = a) ∨ s.answer j q = some b := by
  grind [State.reply_answer]

lemma reply (h : Inv P s) (hc : s.command i = some c) (hr : s.answer i r = none)
    (hcov : Covers P s r i c a) (n : ℕ) : Inv P (s.reply i r a n) := by
  have hgrows := State.grows_reply hr a n
  -- an instance answered before is on record, so the new answer covers it
  have hnew : ∀ {j b d}, j ≠ i → s.answer j r = some b → s.command j = some d → P.conflict c d →
      j ∈ a.deps := by
    intro j b d hne hb hd hconf
    obtain ⟨m, hm⟩ := h.answer_known hb
    exact (hcov j d m hne hd hm hconf).1
  exact
    { known_command := (h.note hc n).known_command
      answer_known := fun {j q b} hb => by
        rcases reply_cases hb with ⟨rfl, rfl, -⟩ | hb
        · exact ⟨n, by simp [State.reply, State.noted_apply]⟩
        · exact (h.note hc n).answer_known hb
      answer_conflict := fun {j k q b b' d d'} hne hb hb' hd hd' hconf hconf' => by
        rcases reply_cases hb with ⟨rfl, rfl, rfl⟩ | hold
        · rcases reply_cases hb' with ⟨rfl, -, -⟩ | hold'
          · exact absurd rfl hne
          · obtain rfl : c = d := Option.some_inj.mp (hc.symm.trans hd)
            exact .inr (hnew hne.symm hold' hd' hconf)
        · rcases reply_cases hb' with ⟨rfl, rfl, rfl⟩ | hold'
          · obtain rfl : c = d' := Option.some_inj.mp (hc.symm.trans hd')
            exact .inl (hnew hne hold hd hconf')
          · exact h.answer_conflict hne hold hold' hd hd' hconf hconf'
      counted := fun hq => (h.counted hq).imp fun b hb => hgrows.answer hb
      unproposed := h.unproposed
      unoffered := h.unoffered
      oks := h.oks
      unchosen := h.unchosen
      offer := fun ho => (h.offer ho).grows hgrows
      choice := fun hv => (h.choice hv).grows hgrows }

lemma count (h : Inv P s) (ha : s.answer i r = some a) : Inv P (s.count i r) :=
  { h with
    counted {j q} hq := by
      rcases State.mem_update.mp hq with ⟨rfl, rfl⟩ | hq
      · exact ⟨a, ha⟩
      · exact h.counted hq }

omit [DecidableEq ι] in
lemma makeOffer (h : Inv P s) {o : Attributes I} (hc : s.command i = some c)
    (hQ : P.quorum (s.counted i)) (hle : ∀ q ∈ s.counted i, ∀ a, s.answer i q = some a → a ≤ o)
    : Inv P (s.makeOffer i o) :=
  { h with
    unproposed {j} hj := by
      have hji : j ≠ i := by
        rintro rfl
        simp [State.makeOffer, hc] at hj
      simpa [State.makeOffer, hji] using h.unproposed hj
    unoffered {j} hj := by
      have hji : j ≠ i := by
        rintro rfl
        simp [State.makeOffer] at hj
      exact h.unoffered (by simpa [State.makeOffer, hji] using hj)
    offer {j v} hv := by
      by_cases hj : j = i
      · subst hj
        obtain rfl : o = v := by simpa [State.makeOffer] using hv
        refine ⟨s.counted j, hQ, fun q hq => ?_⟩
        obtain ⟨a, ha⟩ := h.counted hq
        exact ⟨a, ha, hle q hq a ha⟩
      · exact h.offer (by simpa [State.makeOffer, hj] using hv) }

lemma accept (h : Inv P s) {o : Attributes I} (ho : s.offer i = some o) :
    Inv P (s.accept i r) :=
  { h with
    unoffered := fun {j} hj => by
      have hji : j ≠ i := by
        rintro rfl
        simp [State.accept, ho] at hj
      simpa [State.accept, hji] using h.unoffered hj
    oks := fun hq => State.mem_update.mpr (.inr (h.oks hq)) }

lemma ok (h : Inv P s) (hr : r ∈ s.accepted i) : Inv P (s.ok i r) :=
  { h with
    oks := fun {j q} hq => by
      rcases State.mem_update.mp hq with ⟨rfl, rfl⟩ | hq
      · exact hr
      · exact h.oks hq }

omit [DecidableEq ι] in
lemma choose (h : Inv P s) (hc : s.command i = some c)
    (hv : s.offer i = some v ∨ ∃ Q, P.quorum Q ∧ ∀ q ∈ Q, s.answer i q = some v) :
    Inv P (s.choose i v) :=
  { h with
    unproposed {j} hj := by
      have hji : j ≠ i := by
        rintro rfl
        simp [State.choose, hc] at hj
      simpa [State.choose, hji] using h.unproposed hj
    unchosen {j} hj := by
      have hji : j ≠ i := by
        rintro rfl
        simp [State.choose] at hj
      exact h.unchosen (by simpa [State.choose, hji] using hj)
    choice {j w} hw := by
      by_cases hj : j = i
      · subst hj
        obtain rfl : v = w := by simpa [State.choose] using hw
        rcases hv with ho | ⟨Q, hQ, hall⟩
        · exact h.offer ho
        · exact ⟨Q, hQ, fun q hq => ⟨v, hall q hq, le_rfl⟩⟩
      · exact h.choice (by simpa [State.choose, hj] using hw) }

lemma learn (h : Inv P s) (hv : s.choice i = some v) : Inv P (s.learn i r) :=
  { h with
    unchosen := fun {j} hj => by
      have hji : j ≠ i := by
        rintro rfl
        simp [State.learn, hv] at hj
      simpa [State.learn, hji] using h.unchosen hj }

omit [DecidableEq ι] [DecidableEq I] in
/-- **Of two chosen instances whose commands conflict, one depends on the other.** -/
theorem dependent (h : Inv P s) (hinter : ∀ Q Q', P.quorum Q → P.quorum Q' → ∃ q, q ∈ Q ∧ q ∈ Q')
    {w : Attributes I} {d : κ} (hne : i ≠ j) (hv : s.choice i = some v) (hw : s.choice j = some w)
    (hc : s.command i = some c) (hd : s.command j = some d) (hcd : P.conflict c d)
    (hdc : P.conflict d c) : i ∈ w.deps ∨ j ∈ v.deps := by
  obtain ⟨Q, hQ, hallv⟩ := h.choice hv
  obtain ⟨Q', hQ', hallw⟩ := h.choice hw
  -- a replica of both quorums has answered for both instances, one after the other
  obtain ⟨q, hq, hq'⟩ := hinter Q Q' hQ hQ'
  obtain ⟨a, ha, hav⟩ := hallv q hq
  obtain ⟨b, hb, hbw⟩ := hallw q hq'
  rcases h.answer_conflict hne ha hb hc hd hcd hdc with hi | hj
  · exact .inl (hbw.2 hi)
  · exact .inr (hav.2 hj)

end Inv
end Rounds
