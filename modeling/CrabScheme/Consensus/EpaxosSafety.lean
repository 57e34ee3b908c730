import CrabScheme.Consensus.EpaxosRounds

/-!
# Records and executions of the EPaxos engine

Two properties of the runs of a cluster. The record of a committed instance stays as it is, provided
that no `preaccept` or `accept` arrives after the commit: the handlers of the two write without
looking at what is there. The replicas execute interfering commands in one order, provided that,
among the instances a replica has committed and not executed, the order by sequence number and
instance goes with the dependencies that are not mutual: the handlers do not make it so.

## Main results

* `committed_records_stay_iff` — a run keeps committed records just when its steps are timely.
* `executions_consistent` — in a run whose steps are in order the executions agree.
* `committed_agree`, `interfering_depend` — what is committed agrees, in every run.
-/

namespace CrabScheme.Consensus

variable {ι κ σ : Type} [LinearOrder ι]

/-! ## Committed records -/

/-- How far an instance has come. -/
def Status.rank : Status → ℕ
  | .preaccepted => 0
  | .accepted => 1
  | .committed => 2
  | .executed => 3

/-- A record stays, or its status moves on. -/
structure Rec.Kept (r r' : Rec ι κ) : Prop where
  command : r'.command = r.command
  seq : r'.seq = r.seq
  deps : r'.deps = r.deps
  status : r.status.rank ≤ r'.status.rank

namespace Rec.Kept

variable {r r' r'' : Rec ι κ}

omit [LinearOrder ι] in
lemma refl : r.Kept r := ⟨rfl, rfl, rfl, le_rfl⟩

omit [LinearOrder ι] in
lemma trans (h : r.Kept r') (h' : r'.Kept r'') : r.Kept r'' :=
  ⟨h'.command.trans h.command, h'.seq.trans h.seq, h'.deps.trans h.deps,
    h.status.trans h'.status⟩

omit [LinearOrder ι] in
lemma settled (h : r.Kept r') (hr : r.Settled) : r'.Settled := by
  have hrank := h.status
  rcases hr with hr | hr <;> rw [hr] at hrank <;> unfold Settled <;>
    cases hs : r'.status <;> simp_all [Status.rank]

end Rec.Kept

/-- Committed records of a replica stay. -/
def Epaxos.Keeps (st st' : Epaxos ι κ σ) : Prop :=
  ∀ i r, st.cmdsGet i = some r → r.Settled → ∃ r', st'.cmdsGet i = some r' ∧ r.Kept r'

namespace Epaxos

variable {st st' st'' : Epaxos ι κ σ}

lemma Keeps.trans (h : st.Keeps st') (h' : st'.Keeps st'') : st.Keeps st'' := by
  intro i r hr hs
  obtain ⟨r', hr', hk⟩ := h i r hr hs
  obtain ⟨r'', hr'', hk'⟩ := h' i r' hr' (hk.settled hs)
  exact ⟨r'', hr'', hk.trans hk'⟩

lemma keeps_of_cmds_eq (h : st'.cmds = st.cmds) : st.Keeps st' := by
  intro i r hr _
  exact ⟨r, by rwa [cmdsGet, h], .refl⟩

lemma keeps_cmdsSet {i : Inst ι} (hi : ∀ r, st.cmdsGet i = some r → ¬ r.Settled) (s : Rec ι κ) :
    st.Keeps (st.cmdsSet i s) := by
  intro j r hr hs
  have hne : j ≠ i := by
    rintro rfl
    exact hi r hr hs
  exact ⟨r, by rw [cmdsGet_cmdsSet, if_neg hne, hr], .refl⟩

lemma keeps_execute (hst : st.Distinct) : st.Keeps st.execute := by
  intro i r hr _
  rw [(execute_ran hst).cmdsGet]
  split
  · refine ⟨{ r with status := .executed }, by rw [hr, Option.map_some], rfl, rfl, rfl, ?_⟩
    cases r.status <;> simp [Status.rank]
  · exact ⟨r, hr, .refl⟩

/-- A transition that writes no record, or one of an instance that is not committed, keeps the
committed ones. -/
lemma keeps_step (hst : st.Distinct) (sender : ι) (msg : Msg ι κ)
    (h : ∀ i s, st.writes msg = some (i, s) → ∀ r, st.cmdsGet i = some r → ¬ r.Settled) :
    st.Keeps (st.step sender msg).1 := by
  obtain ⟨collects, heq⟩ := st.step_eq sender msg
  rw [heq]
  cases hw : st.writes msg with
  | none => exact keeps_of_cmds_eq rfl
  | some w =>
    obtain ⟨i, s⟩ := w
    have hset : st.Keeps (({ st with collects := collects } : Epaxos ι κ σ).cmdsSet i s) :=
      (keeps_of_cmds_eq rfl).trans (keeps_cmdsSet (h i s hw) s)
    unfold written
    dsimp only
    split
    · exact hset.trans (keeps_execute (Alist.nodup_replace hst))
    · exact hset

end Epaxos

namespace EpxCluster

variable (c : EpxCluster ι κ σ)

/-- The record of an instance at a replica. -/
def record (q : ι) (i : Inst ι) : Option (Rec ι κ) := (c.get q).bind fun st => st.cmdsGet i

/-- **Committed records stay.** -/
def Keeps (c c' : EpxCluster ι κ σ) : Prop :=
  ∀ q i r, c.record q i = some r → r.Settled → ∃ r', c'.record q i = some r' ∧ r.Kept r'

/-- A `preaccept` or `accept` is for an instance that the replica has not recorded as committed or
executed. -/
def Fresh (q : ι) : Msg ι κ → Prop
  | .preaccept inst _ _ _ => ∀ r ∈ c.record q inst, ¬ r.Settled
  | .accept inst _ _ _ => ∀ r ∈ c.record q inst, ¬ r.Settled
  | _ => True

/-- **No `preaccept` or `accept` is delivered late.** -/
def Timely (c : EpxCluster ι κ σ) : EpxAct ι κ → Prop
  | .propose _ _ => True
  | .deliver k => ∀ e ∈ c.net[k]?, c.Fresh e.receiver e.msg

variable {c} {c' c'' : EpxCluster ι κ σ} {ms : Members ι} {interferes : κ → κ → Bool}
  {a : Play ι κ}

lemma Keeps.refl : c.Keeps c := fun _ _ r hr _ => ⟨r, hr, .refl⟩

lemma Keeps.trans (h : c.Keeps c') (h' : c'.Keeps c'') : c.Keeps c'' := by
  intro q i r hr hs
  obtain ⟨r', hr', hk⟩ := h q i r hr hs
  obtain ⟨r'', hr'', hk'⟩ := h' q i r' hr' (hk.settled hs)
  exact ⟨r'', hr'', hk.trans hk'⟩

lemma record_of_get {q : ι} {st : Epaxos ι κ σ} (hget : c.get q = some st) (i : Inst ι) :
    c.record q i = st.cmdsGet i := by
  rw [record, hget, Option.bind_some]

variable {rest : List (Envelope ι κ)} {res : Epaxos ι κ σ × List (ι × Msg ι κ)}

lemma record_put {q : ι} (i : Inst ι) : (c.put q rest res).record q i = res.1.cmdsGet i :=
  record_of_get (by rw [get_put, if_pos rfl]) i

lemma keeps_put {q : ι} {st : Epaxos ι κ σ} (hget : c.get q = some st) (h : st.Keeps res.1) :
    c.Keeps (c.put q rest res) := by
  intro p i r hr hs
  by_cases hp : p = q
  · subst hp
    rw [record_of_get hget] at hr
    rw [record_put]
    exact h i r hr hs
  · exact ⟨r, by rwa [record, get_put, if_neg hp], .refl⟩

lemma not_settled_of_keeps {q : ι} {i : Inst ι} {s : Rec ι κ} (h : c.Keeps (c.put q rest res))
    (hs : res.1.cmdsGet i = some s) (hrank : s.status.rank < 2)
    : ∀ r ∈ c.record q i, ¬ r.Settled := by
  intro r hr hset
  obtain ⟨r', hr', hk⟩ := h q i r hr hset
  rw [record_put, hs, Option.some_inj] at hr'
  subst hr'
  have := hk.status
  rcases hset with hset | hset <;> rw [hset] at this <;> simp [Status.rank] at this hrank <;> omega

end EpxCluster

section Records

variable {ms : Members ι} {interferes : κ → κ → Bool} {c : EpxCluster ι κ σ} {a : Play ι κ}

lemma Plays.not_settled_of_collect {q : ι} {st : Epaxos ι κ σ} {i : Inst ι} {col : Collect ι κ}
    (h : Plays ms interferes a q st) (hcol : st.collectGet i = some col) :
    ∀ r, st.cmdsGet i = some r → ¬ r.Settled := by
  intro r hr hs
  have := ((h.records hr).settled hs).2
  simp [(h.collects hcol).unchosen] at this

/-- **A message keeps the committed records just when it is fresh.** -/
lemma Refines.keeps_message_iff (h : Refines ms interferes c a) {e : Envelope ι κ}
    {st : Epaxos ι κ σ} (hget : c.get e.receiver = some st) (hlive : a.Live e.token)
    (rest : List (Envelope ι κ)) :
    c.Keeps (c.put e.receiver rest (st.step e.sender e.msg)) ↔ c.Fresh e.receiver e.msg := by
  have hst := h.nodes hget
  obtain ⟨sender, receiver, msg⟩ := e
  have hkeeps := Epaxos.keeps_step hst.distinct sender msg
  cases msg with
  | preaccept i command seq deps =>
    refine ⟨fun hk => ?_, fun hf => EpxCluster.keeps_put hget (hkeeps fun j s hw r hr => ?_)⟩
    · exact EpxCluster.not_settled_of_keeps hk
        (by rw [Epaxos.step, Epaxos.onPreaccept, Epaxos.cmdsGet_cmdsSet, if_pos rfl])
        (by simp [Status.rank])
    · obtain ⟨rfl, -⟩ := Prod.mk.inj (Option.some_inj.mp hw)
      exact hf r ((EpxCluster.record_of_get hget i).trans hr)
  | preacceptReply i seq deps =>
    refine iff_of_true (EpxCluster.keeps_put hget (hkeeps fun j s hw => ?_)) trivial
    obtain ⟨col, hcol, hw⟩ := Option.bind_eq_some_iff.mp hw
    have hj : j = i := by
      split at hw
      · cases hw
      · split at hw
        · cases hw
        · split at hw <;> exact (Prod.mk.inj (Option.some_inj.mp hw)).1.symm
    exact hj ▸ hst.not_settled_of_collect hcol
  | accept i command seq deps =>
    refine ⟨fun hk => ?_, fun hf => EpxCluster.keeps_put hget (hkeeps fun j s hw r hr => ?_)⟩
    · exact EpxCluster.not_settled_of_keeps hk
        (by rw [Epaxos.step, Epaxos.onAccept, Epaxos.cmdsGet_cmdsSet, if_pos rfl])
        (by simp [Status.rank])
    · obtain ⟨rfl, -⟩ := Prod.mk.inj (Option.some_inj.mp hw)
      exact hf r ((EpxCluster.record_of_get hget i).trans hr)
  | acceptReply i =>
    refine iff_of_true (EpxCluster.keeps_put hget (hkeeps fun j s hw => ?_)) trivial
    obtain ⟨col, hcol, hw⟩ := Option.bind_eq_some_iff.mp hw
    have hj : j = i := by
      split at hw
      · exact (Prod.mk.inj (Option.some_inj.mp hw)).1.symm
      · cases hw
    exact hj ▸ hst.not_settled_of_collect hcol
  | commit i command seq deps =>
    refine iff_of_true (EpxCluster.keeps_put hget (hkeeps fun j s hw r hr hs => ?_)) trivial
    obtain ⟨rfl, -⟩ := Prod.mk.inj (Option.some_inj.mp hw)
    exact hlive.2 ((hst.records hr).settled hs).1

/-- **One step keeps the committed records just when it is timely.** -/
lemma Refines.keeps_step_iff (h : Refines ms interferes c a) (act : EpxAct ι κ) :
    c.Keeps (EpxCluster.step act c) ↔ c.Timely act := by
  cases act with
  | propose id command =>
    refine iff_of_true ?_ trivial
    unfold EpxCluster.step
    dsimp only
    split
    · exact .refl
    · next st hget =>
      have hst := h.nodes hget
      have hset : ({ st with nextSlot := st.nextSlot + 1 } : Epaxos ι κ σ).Keeps
          (st.propose command).1 := by
        refine Epaxos.keeps_cmdsSet (fun r hr _ => ?_) _
        -- the slot is new
        have := (hst.records hr).command
        rw [hst.id, hst.slots _ le_rfl] at this
        cases this
      exact EpxCluster.keeps_put hget ((Epaxos.keeps_of_cmds_eq rfl).trans hset)
  | deliver k =>
    simp only [EpxCluster.step, EpxCluster.Timely]
    cases hk : c.net[k]? with
    | none => exact iff_of_true .refl nofun
    | some e =>
      have hone : (∀ e' ∈ some e, c.Fresh e'.receiver e'.msg) ↔ c.Fresh e.receiver e.msg := by simp
      rw [hone]
      dsimp only
      split
      · next hget =>
        refine iff_of_true .refl ?_
        unfold EpxCluster.Fresh
        split <;> simp [EpxCluster.record, hget]
      · next st hget =>
        exact h.keeps_message_iff hget (h.live e (List.mem_of_getElem? hk)) _

/-- **Committed records stay, just in the timely runs.** In a run of a cluster, the record of an
instance that is committed or executed at some time has the same command, sequence number and
dependencies, and no earlier status, at every later time, if and only if every step is timely. -/
theorem committed_records_stay_iff (ms : Members ι) (interferes : κ → κ → Bool)
    (apply : σ → κ → σ) (sm : σ) (as : List (EpxAct ι κ)) :
    (∀ xs ys, xs ++ ys <+: as →
      (Actions.run EpxCluster.step xs (epxMake ms interferes apply sm)).Keeps
        (Actions.run EpxCluster.step (xs ++ ys) (epxMake ms interferes apply sm))) ↔
    Actions.Allowed EpxCluster.step EpxCluster.Timely (epxMake ms interferes apply sm) as := by
  constructor
  · intro h
    induction as using List.reverseRecOn with
    | nil => trivial
    | append_singleton as act ih =>
      obtain ⟨a, ha⟩ := refines_run ms interferes apply sm as
      refine Actions.allowed_concat.mpr ⟨ih fun xs ys hp => h xs ys ?_, ?_⟩
      · exact hp.trans (List.prefix_append as [act])
      · have hlast := h as [act] (List.prefix_refl _)
        rw [Actions.run_concat] at hlast
        exact (ha.keeps_step_iff act).mp hlast
  · rintro h xs ys ⟨zs, rfl⟩
    rw [List.append_assoc, Actions.allowed_append] at h
    replace h := (Actions.allowed_append.mp h.2).1
    rw [Actions.run_append]
    induction ys using List.reverseRecOn with
    | nil => exact .refl
    | append_singleton ys act ih =>
      obtain ⟨hys, hact⟩ := Actions.allowed_concat.mp h
      obtain ⟨a, ha⟩ := refines_run ms interferes apply sm (xs ++ ys)
      rw [Actions.run_append] at ha
      rw [Actions.run_concat]
      exact (ih hys).trans ((ha.keeps_step_iff act).mpr hact)

/-- Three replicas with ids `0`, `1` and `2`. -/
def threeReplicas : Members ℕ := ⟨[0, 1, 2], by decide⟩

/-- A cluster of three, where all commands interfere and the state is the commands that ran. -/
def newCluster : EpxCluster ℕ ℕ (List ℕ) :=
  epxMake threeReplicas (fun _ _ => true) (fun s command => s ++ [command]) []

/-- A `preaccept` that arrives after the commit: replica `0` commits with the reply of `1`, its
commit reaches `2` and runs there, and then its `preaccept` puts the instance back. -/
theorem late_preaccept_overwrites :
    let as : List (EpxAct ℕ ℕ) := [.propose 0 7, .deliver 0, .deliver 1, .deliver 2]
    (Actions.run EpxCluster.step as newCluster).record 2 (0, 0) = some ⟨7, 1, [], .executed⟩ ∧
      (Actions.run EpxCluster.step (as ++ [EpxAct.deliver 0]) newCluster).record 2 (0, 0) =
        some ⟨7, 1, [], .preaccepted⟩ := by
  decide +kernel

end Records

/-! ## The order of execution -/

/-- If the second record depends on the first and not the other way round, the first comes earlier
in the order by sequence number and instance. -/
def Ascends (i : Inst ι) (r : Rec ι κ) (j : Inst ι) (s : Rec ι κ) : Prop :=
  i ∈ s.deps → j ∉ r.deps → toLex (r.seq, toLex i) < toLex (s.seq, toLex j)

instance (i : Inst ι) (r : Rec ι κ) (j : Inst ι) (s : Rec ι κ) : Decidable (Ascends i r j s) :=
  inferInstanceAs (Decidable (i ∈ s.deps → j ∉ r.deps →
    toLex (r.seq, toLex i) < toLex (s.seq, toLex j)))

namespace Epaxos

/-- The committed instances of a replica that have not run are in order. -/
def Ascending (st : Epaxos ι κ σ) : Prop :=
  ∀ i r j s, st.cmdsGet i = some r → st.cmdsGet j = some s → i ≠ j → r.status = .committed →
    s.status = .committed → Ascends i r j s

/-- A commit recorded for `i` goes with the dependencies that are not mutual, among the instances
the replica has committed and not executed. -/
def RecordsInOrder (st : Epaxos ι κ σ) (i : Inst ι) (r : Rec ι κ) : Prop :=
  r.status = .committed → ∀ b ∈ st.cmds, b.1 ≠ i → b.2.status = .committed →
    Ascends i r b.1 b.2 ∧ Ascends b.1 b.2 i r

instance (st : Epaxos ι κ σ) (i : Inst ι) (r : Rec ι κ) : Decidable (st.RecordsInOrder i r) :=
  inferInstanceAs (Decidable (r.status = .committed → ∀ b ∈ st.cmds, b.1 ≠ i →
    b.2.status = .committed → Ascends i r b.1 b.2 ∧ Ascends b.1 b.2 i r))

variable {st : Epaxos ι κ σ} {i : Inst ι} {r : Rec ι κ}

lemma Ascending.cmdsSet (h : st.Ascending) (hord : st.RecordsInOrder i r) :
    (st.cmdsSet i r).Ascending := by
  have hr : r.status = .committed → ∀ j s, st.cmdsGet j = some s → j ≠ i →
      s.status = .committed → Ascends i r j s ∧ Ascends j s i r :=
    fun hr j s hs => hord hr (j, s) (Alist.mem_of_get hs)
  intro j s k u hs hu hne hjs hku
  rw [cmdsGet_cmdsSet] at hs hu
  split at hs
  · next hj =>
    obtain rfl := Option.some_inj.mp hs
    subst hj
    rw [if_neg (Ne.symm hne)] at hu
    exact (hr hjs k u hu (Ne.symm hne) hku).1
  · next hj =>
    split at hu
    · next hk =>
      obtain rfl := Option.some_inj.mp hu
      subst hk
      exact (hr hku j s hs hj hjs).2
    · exact h j s k u hs hu hne hjs hku

lemma Ascending.execute (h : st.Ascending) (hst : st.Distinct) : st.execute.Ascending := by
  have hback : ∀ {j s}, st.execute.cmdsGet j = some s → s.status = .committed →
      st.cmdsGet j = some s := by
    intro j s hs hcomm
    rw [(execute_ran hst).cmdsGet] at hs
    split at hs
    · obtain ⟨s', -, rfl⟩ := Option.map_eq_some_iff.mp hs
      cases hcomm
    · exact hs
  intro j s k u hs hu hne hjs hku
  exact h j s k u (hback hs hjs) (hback hu hku) hne hjs hku

end Epaxos

namespace EpxCluster

/-- **Commits are recorded in order.** -/
def InOrder (c : EpxCluster ι κ σ) : EpxAct ι κ → Prop
  | .propose _ _ => True
  | .deliver k => ∀ e ∈ c.net[k]?, ∀ st ∈ c.get e.receiver, ∀ w ∈ st.writes e.msg,
    st.RecordsInOrder w.1 w.2

instance (c : EpxCluster ι κ σ) : ∀ act, Decidable (c.InOrder act)
  | .propose _ _ => isTrue trivial
  | .deliver k => inferInstanceAs (Decidable (∀ e ∈ c.net[k]?, ∀ st ∈ c.get e.receiver,
      ∀ w ∈ st.writes e.msg, st.RecordsInOrder w.1 w.2))

/-- **The executions agree**: every replica runs an instance at most once, and two replicas that
have both run two instances with interfering commands have run them in the same order. -/
def Consistent (interferes : κ → κ → Bool) (c : EpxCluster ι κ σ) : Prop :=
  ∀ p q st st', c.get p = some st → c.get q = some st' → st.executed.Nodup ∧
    ∀ i j r s, i ≠ j → i ∈ st.executed → j ∈ st.executed → i ∈ st'.executed → j ∈ st'.executed →
      st.cmdsGet i = some r → st.cmdsGet j = some s → interferes r.command s.command = true →
      (st.executed.idxOf i < st.executed.idxOf j ↔ st'.executed.idxOf i < st'.executed.idxOf j)

end EpxCluster

/-- What is chosen for `i` depends on `d`, and `d` comes first. -/
def Before (a : Play ι κ) (d i : Inst ι) : Prop :=
  ∃ v w, a.choice i = some v ∧ a.choice d = some w ∧ d ∈ v.deps ∧
    (i ∉ w.deps ∨ toLex (w.seq, toLex d) < toLex (v.seq, toLex i))

/-- **A trace follows what is chosen**: it has the dependencies of its instances, and no instance
comes after one that it comes before. -/
structure Traced (a : Play ι κ) (l : List (Inst ι)) : Prop where
  closed : ∀ i ∈ l, ∀ v, a.choice i = some v → ∀ d ∈ v.deps, d ∈ l
  order : l.Pairwise fun x y => ¬ Before a y x

section Order

variable {ms : Members ι} {interferes : κ → κ → Bool} {c : EpxCluster ι κ σ} {a a' : Play ι κ}
  {q : ι} {st : Epaxos ι κ σ} {l : List (Inst ι)}

lemma Traced.grows (h : Traced a l) (hgrows : a.Grows a')
    (hl : ∀ i ∈ l, ∃ v, a.choice i = some v) : Traced a' l := by
  have hsame : ∀ i ∈ l, ∀ v, a'.choice i = some v → a.choice i = some v := by
    intro i hi v hv
    obtain ⟨u, hu⟩ := hl i hi
    rw [hu, Option.some_inj]
    exact Option.some_inj.mp ((hgrows.choice hu).symm.trans hv)
  refine ⟨fun i hi v hv => h.closed i hi v (hsame i hi v hv), h.order.imp_of_mem ?_⟩
  rintro x y hx hy hnot ⟨v, w, hv, hw, hrest⟩
  exact hnot ⟨v, w, hsame x hx v hv, hsame y hy w hw, hrest⟩

lemma Plays.chosen (h : Plays ms interferes a q st) (hinv : Rounds.Inv (protocol ms interferes) a) :
    ∀ i ∈ st.executed, ∃ v, a.choice i = some v := by
  intro i hi
  refine Option.ne_none_iff_exists'.mp fun hnone => ?_
  have := h.learned i hi
  simp [hinv.unchosen hnone] at this

/-- **An execution extends the trace**: the ready instances have their dependencies in the trace or
among themselves, and run in the order of their places. -/
lemma Traced.execute (h : Traced a st.executed) (hplays : Plays ms interferes a q st.execute)
    (hst : st.Distinct)
    (hexec : ∀ {i r}, st.cmdsGet i = some r → r.status = .executed → i ∈ st.executed)
    (hasc : st.Ascending) : Traced a st.execute.executed := by
  have hran := Epaxos.execute_ran hst
  -- what a ready instance has on record is chosen
  have hready : ∀ i ∈ st.ordered, ∃ r, st.cmdsGet i = some r ∧ r.status = .committed ∧
      a.choice i = some (attrs r.seq r.deps) := by
    intro i hi
    obtain ⟨r, hr, hs⟩ := Epaxos.committed_of_mem_elig hst (Epaxos.ordered_perm.mem_iff.mp hi)
    have hr' : st.execute.cmdsGet i = some { r with status := .executed } := by
      rw [hran.cmdsGet, if_pos hi, hr, Option.map_some]
    exact ⟨r, hr, hs, ((hplays.records hr').settled (.inr rfl)).2⟩
  have hdisj := hplays.trace
  rw [hran.executed] at hdisj ⊢
  refine ⟨fun i hi v hv d hd => ?_, List.pairwise_append.mpr ⟨h.order, ?_, ?_⟩⟩
  · rcases List.mem_append.mp hi with hi | hi
    · exact List.mem_append_left _ (h.closed i hi v hv d hd)
    · obtain ⟨r, hr, -, hv'⟩ := hready i hi
      obtain rfl := Option.some_inj.mp (hv'.symm.trans hv)
      rcases Epaxos.elig_closed (Epaxos.ordered_perm.mem_iff.mp hi) hr hd with ⟨r', hr', hs'⟩ | hd'
      · exact List.mem_append_left _ (hexec hr' hs')
      · exact List.mem_append_right _ (Epaxos.ordered_perm.mem_iff.mpr hd')
  · refine (Epaxos.ordered_pairwise hst).imp_of_mem ?_
    rintro x y hx hy hlt ⟨v, w, hv, hw, hdep, hcase⟩
    obtain ⟨r, hr, hrs, hv'⟩ := hready x hx
    obtain ⟨s, hs, hss, hw'⟩ := hready y hy
    obtain rfl := Option.some_inj.mp (hv'.symm.trans hv)
    obtain rfl := Option.some_inj.mp (hw'.symm.trans hw)
    have hlt' : toLex (r.seq, toLex x) < toLex (s.seq, toLex y) := by
      simpa [Epaxos.place, Epaxos.seqOf, hr, hs] using hlt
    have hne : y ≠ x := by
      rintro rfl
      exact lt_irrefl _ hlt
    rcases hcase with hone | hplace
    · exact lt_asymm hlt' (hasc y s x r hs hr hne hss hrs hdep hone)
    · exact lt_asymm hlt' hplace
  · rintro x hx y hy ⟨v, w, hv, -, hdep, -⟩
    exact List.disjoint_of_nodup_append hdisj (h.closed x hx v hv y hdep) hy

lemma Plays.step_traced {e : Envelope ι κ} (hst : Plays ms interferes a q st)
    (hasc : st.Ascending) (htraced : Traced a' st.executed)
    (hplays : Plays ms interferes a' q (st.step e.sender e.msg).1)
    (hord : ∀ w ∈ st.writes e.msg, st.RecordsInOrder w.1 w.2) :
    (st.step e.sender e.msg).1.Ascending ∧ Traced a' (st.step e.sender e.msg).1.executed := by
  obtain ⟨collects, heq⟩ := st.step_eq e.sender e.msg
  rw [heq] at hplays ⊢
  cases hw : st.writes e.msg with
  | none => exact ⟨hasc, htraced⟩
  | some w =>
    obtain ⟨i, r⟩ := w
    set st0 : Epaxos ι κ σ := { st with collects := collects }
    have hasc0 : st0.Ascending := hasc
    have hasc1 : (st0.cmdsSet i r).Ascending := hasc0.cmdsSet (hord (i, r) hw)
    rw [hw] at hplays
    unfold Epaxos.written at hplays ⊢
    dsimp only at hplays ⊢
    split at hplays
    · next hcomm =>
      rw [if_pos hcomm]
      have hdist : (st0.cmdsSet i r).Distinct := Alist.nodup_replace hst.distinct
      have htraced1 : Traced a' (st0.cmdsSet i r).executed := htraced
      refine ⟨hasc1.execute hdist, htraced1.execute hplays hdist (fun {j s} hs hss => ?_) hasc1⟩
      rw [Epaxos.cmdsGet_cmdsSet] at hs
      split at hs
      · obtain rfl := Option.some_inj.mp hs
        rw [hcomm] at hss
        cases hss
      · exact hst.executed hs hss
    · next hcomm =>
      rw [if_neg hcomm]
      exact ⟨hasc1, htraced⟩

/-- The cluster is in step with the rounds, and every trace follows what is chosen. -/
def Follows (ms : Members ι) (interferes : κ → κ → Bool) (c : EpxCluster ι κ σ) : Prop :=
  ∃ a, Refines ms interferes c a ∧
    ∀ q st, c.get q = some st → st.Ascending ∧ Traced a st.executed

/-- **One step in order.** -/
lemma Follows.step (h : Follows ms interferes c) {act : EpxAct ι κ} (hact : c.InOrder act) :
    Follows ms interferes (EpxCluster.step act c) := by
  obtain ⟨a, href, hall⟩ := h
  obtain ⟨a', hgrows, href'⟩ := href.step act
  have hkept : ∀ {q st}, c.get q = some st → Traced a' st.executed := fun hget =>
    (hall _ _ hget).2.grows hgrows ((href.nodes hget).chosen href.inv)
  refine ⟨a', href', fun p st' hp => ?_⟩
  have hplays := href'.nodes hp
  cases act with
  | propose id command =>
    unfold EpxCluster.step at hp
    dsimp only at hp
    split at hp
    · exact ⟨(hall p st' hp).1, hkept hp⟩
    · next st hget =>
      rw [EpxCluster.get_put] at hp
      split at hp
      · obtain rfl := Option.some_inj.mp hp
        have hnext : ({ st with nextSlot := st.nextSlot + 1 } : Epaxos ι κ σ).Ascending :=
          (hall id st hget).1
        have hsame : Traced a' st.executed := hkept hget
        refine ⟨hnext.cmdsSet fun hr => ?_, hsame⟩
        cases hr
      · exact ⟨(hall p st' hp).1, hkept hp⟩
  | deliver k =>
    unfold EpxCluster.step at hp
    dsimp only at hp
    split at hp
    · exact ⟨(hall p st' hp).1, hkept hp⟩
    · next e he =>
      split at hp
      · exact ⟨(hall p st' hp).1, hkept hp⟩
      · next st hget =>
        rw [EpxCluster.get_put] at hp
        split at hp
        · next hpq =>
          subst hpq
          obtain rfl := Option.some_inj.mp hp
          exact (href.nodes hget).step_traced (hall _ _ hget).1 (hkept hget) hplays
            (hact e he st hget)
        · exact ⟨(hall p st' hp).1, hkept hp⟩

lemma follows_make (apply : σ → κ → σ) (sm : σ) :
    Follows ms interferes (epxMake ms interferes apply sm) := by
  refine ⟨_, refines_make apply sm, fun q st hget => ?_⟩
  obtain ⟨-, rfl⟩ := EpxCluster.get_make hget
  refine ⟨fun i r j s hr => ?_, fun _ hi => absurd hi List.not_mem_nil, List.Pairwise.nil⟩
  cases hr

lemma fastQuorum_inter (hodd : Odd ms.ids.length) (hthree : 3 ≤ ms.ids.length) (Q Q' : Finset ι)
    (hQ : (protocol ms interferes).quorum Q) (hQ' : (protocol ms interferes).quorum Q') :
    ∃ q, q ∈ Q ∧ q ∈ Q' := by
  have hcard : ms.ids.toFinset.card = ms.ids.length := List.toFinset_card_of_nodup ms.nodup
  have hmany : ms.ids.length < ms.fastQuorum + ms.fastQuorum := by
    obtain ⟨f, hf⟩ := hodd
    simp only [Members.fastQuorum]
    omega
  obtain ⟨q, hq⟩ := Finset.inter_nonempty_of_card_lt_card_add_card
    (fun x hx => List.mem_toFinset.mpr (hQ.1 x hx)) (fun x hx => List.mem_toFinset.mpr (hQ'.1 x hx))
    (hcard ▸ hmany.trans_le (Nat.add_le_add hQ.2 hQ'.2))
  exact ⟨q, Finset.mem_inter.mp hq⟩

lemma Traced.idxOf_lt (h : Traced a l) {i j : Inst ι} (hi : i ∈ l) (hj : j ∈ l) (hne : i ≠ j)
    (hbefore : Before a i j) : l.idxOf i < l.idxOf j := by
  by_contra hnot
  have hlt : l.idxOf j < l.idxOf i :=
    (not_lt.mp hnot).lt_of_ne fun heq => hne ((List.idxOf_inj hj).mp heq).symm
  have := List.pairwise_iff_getElem.mp h.order _ _ (List.idxOf_lt_length_of_mem hj)
    (List.idxOf_lt_length_of_mem hi) hlt
  rw [List.getElem_idxOf, List.getElem_idxOf] at this
  exact this hbefore

/-- **Two interfering instances that have run come one before the other**, by what is chosen. -/
lemma before_or_before (hinv : Rounds.Inv (protocol ms interferes) a)
    (hodd : Odd ms.ids.length) (hthree : 3 ≤ ms.ids.length) {i j : Inst ι} (hne : i ≠ j)
    (hi : ∃ v, a.choice i = some v) (hj : ∃ w, a.choice j = some w) {x y : κ}
    (hx : a.command i = some x) (hy : a.command j = some y) (hxy : interferes x y = true)
    (hyx : interferes y x = true) : Before a i j ∨ Before a j i := by
  obtain ⟨v, hv⟩ := hi
  obtain ⟨w, hw⟩ := hj
  by_cases hij : i ∈ w.deps
  · by_cases hji : j ∈ v.deps
    · -- the two depend on each other, and go by their places
      have hplaces : toLex (v.seq, toLex i) ≠ toLex (w.seq, toLex j) := fun heq =>
        hne (by simpa using congrArg (fun p => ofLex (ofLex p).2) heq)
      rcases lt_or_gt_of_ne hplaces with hlt | hlt
      · exact .inl ⟨w, v, hw, hv, hij, .inr hlt⟩
      · exact .inr ⟨v, w, hv, hw, hji, .inr hlt⟩
    · exact .inl ⟨w, v, hw, hv, hij, .inl hji⟩
  · have hji := (hinv.dependent (fastQuorum_inter hodd hthree) hne hv hw hx hy hxy hyx).resolve_left
      hij
    exact .inr ⟨v, w, hv, hw, hji, .inl hij⟩

lemma Follows.consistent (h : Follows ms interferes c) (hodd : Odd ms.ids.length)
    (hthree : 3 ≤ ms.ids.length) (hsymm : ∀ x y, interferes x y = interferes y x) :
    c.Consistent interferes := by
  obtain ⟨a, href, hall⟩ := h
  intro p q st st' hp hq
  have hst := href.nodes hp
  refine ⟨hst.trace, fun i j r s hne hi hj hi' hj' hr hs hint => ?_⟩
  have htr := (hall p st hp).2
  have htr' := (hall q st' hq).2
  rcases before_or_before href.inv hodd hthree hne (hst.chosen href.inv i hi)
    (hst.chosen href.inv j hj) (hst.records hr).command (hst.records hs).command hint
    (hsymm _ _ ▸ hint) with hb | hb
  · exact iff_of_true (htr.idxOf_lt hi hj hne hb) (htr'.idxOf_lt hi' hj' hne hb)
  · exact iff_of_false (lt_asymm (htr.idxOf_lt hj hi hne.symm hb))
      (lt_asymm (htr'.idxOf_lt hj' hi' hne.symm hb))

/-- **Executions are consistent in the runs that are in order.** For every odd number of replicas,
three or more, and every symmetric interference, in a run of which every step is in order, all
replicas run interfering commands in the same order, and each at most once. -/
theorem executions_consistent (ms : Members ι) (hodd : Odd ms.ids.length)
    (hthree : 3 ≤ ms.ids.length) (interferes : κ → κ → Bool)
    (hsymm : ∀ x y, interferes x y = interferes y x) (apply : σ → κ → σ) (sm : σ)
    (as : List (EpxAct ι κ))
    (has : Actions.Allowed EpxCluster.step EpxCluster.InOrder (epxMake ms interferes apply sm) as) :
    (Actions.run EpxCluster.step as (epxMake ms interferes apply sm)).Consistent interferes := by
  have hstep : ∀ (c : EpxCluster ι κ σ) (act : EpxAct ι κ), Follows ms interferes c →
      c.InOrder act → Follows ms interferes (EpxCluster.step act c) := fun _ _ h => h.step
  exact (Actions.run_invariant hstep (follows_make apply sm) has).consistent hodd hthree hsymm

/-- Two interfering commands, proposed at once at two replicas, and all messages delivered in the
order in which they were sent. -/
theorem executions_consistent_three :
    (Actions.run EpxCluster.step
      (.propose 0 7 :: .propose 2 8 :: List.replicate 20 (.deliver 0)) newCluster).Consistent
      fun _ _ => true :=
  executions_consistent threeReplicas (by decide) (by decide) (fun _ _ => true) (fun _ _ => rfl) _ _
    _ (by decide +kernel)

/-- Four commands on the same key at three replicas. The first two are led by `0` and known only
there when it answers the third, led by `2`, whose sequence number rises to `3`. The fourth, led by
`1`, meets the third with sequence number `1` and ends with `3` as well; it depends on the third,
and not the other way round. -/
def crossedRun : List (EpxAct ℕ ℕ) :=
  [.propose 0 1, .propose 0 2, .propose 2 3, .deliver 4, .deliver 4, .deliver 2, .deliver 1,
    .propose 1 4, .deliver 7, .deliver 2, .deliver 3, .deliver 3, .deliver 4, .deliver 4,
    .deliver 11, .deliver 5, .deliver 12, .deliver 7, .deliver 13, .deliver 9, .deliver 8,
    .deliver 13, .deliver 13, .deliver 11, .deliver 9, .deliver 8]

/-- Replica `0` has run the third command when the fourth arrives. Replica `1` gets the third last,
and runs the fourth before it. -/
theorem executions_cross :
    let c := Actions.run EpxCluster.step crossedRun newCluster
    (c.get 0).map Epaxos.executed = some [(0, 0), (0, 1), (2, 0), (1, 0)] ∧
      (c.get 1).map Epaxos.executed = some [(0, 0), (0, 1), (1, 0), (2, 0)] ∧
      ¬ c.Consistent fun _ _ => true := by
  intro c
  have h0 : (c.get 0).map Epaxos.executed = some [(0, 0), (0, 1), (2, 0), (1, 0)] := by
    decide +kernel
  have h1 : (c.get 1).map Epaxos.executed = some [(0, 0), (0, 1), (1, 0), (2, 0)] := by
    decide +kernel
  refine ⟨h0, h1, fun hc => ?_⟩
  obtain ⟨st, hst, hex⟩ := Option.map_eq_some_iff.mp h0
  obtain ⟨st', hst', hex'⟩ := Option.map_eq_some_iff.mp h1
  have hrec : (c.record 0 (2, 0)).isSome ∧ (c.record 0 (1, 0)).isSome := by decide +kernel
  rw [EpxCluster.record_of_get hst, EpxCluster.record_of_get hst] at hrec
  obtain ⟨r, hr⟩ := Option.isSome_iff_exists.mp hrec.1
  obtain ⟨s, hs⟩ := Option.isSome_iff_exists.mp hrec.2
  have := (hc 0 1 st st' hst hst').2 (2, 0) (1, 0) r s (by decide)
  rw [hex, hex'] at this
  exact absurd (this (by decide) (by decide) (by decide) (by decide) hr hs rfl) (by decide)

end Order

/-! ## Agreement -/

section Agreement

variable (ms : Members ι) (interferes : κ → κ → Bool) (apply : σ → κ → σ) (sm : σ)
  (as : List (EpxAct ι κ)) {k m : ℕ} {p q : ι} {i j : Inst ι} {r s : Rec ι κ}

/-- Replica `q` has the record `r` of a committed instance after the first `k` actions of a run. -/
def CommitsAt (k : ℕ) (q : ι) (i : Inst ι) (r : Rec ι κ) : Prop :=
  (Actions.run EpxCluster.step (as.take k) (epxMake ms interferes apply sm)).record q i = some r ∧
    r.Settled

/-- What is committed at any time of a run is chosen in one play of rounds. -/
lemma exists_play : ∃ a, Rounds.Inv (protocol ms interferes) a ∧
    ∀ {k q i r}, CommitsAt ms interferes apply sm as k q i r →
      a.command i = some r.command ∧ a.choice i = some (attrs r.seq r.deps) := by
  let _ : Preorder (Play ι κ) :=
    { le := Rounds.State.Grows, le_refl := .refl, le_trans := fun _ _ _ => .trans }
  have has : Actions.Allowed EpxCluster.step (fun _ _ => True)
      (epxMake ms interferes apply sm) as := Actions.allowed_of_mem (fun _ _ _ => trivial) _
  obtain ⟨G, hmono, hG⟩ := Actions.run_annotated
    (fun c act a (h : Refines ms interferes c a) _ => h.step act) (refines_make apply sm) has
  refine ⟨G as.length, (hG _).inv, fun {k q i r} ⟨hr, hset⟩ => ?_⟩
  rw [List.take_eq_take_min] at hr
  obtain ⟨st, hst, hget⟩ := Option.bind_eq_some_iff.mp hr
  have hrec := ((hG _).nodes hst).records hget
  have hle : (G _).Grows _ := hmono _ as.length (min_le_right k _)
  exact ⟨hle.command hrec.command, hle.choice (hrec.settled hset).2⟩

/-- **Agreement.** Whatever two replicas have committed for an instance, at whatever times of a run,
is the same command, sequence number and set of dependencies. -/
theorem committed_agree (hr : CommitsAt ms interferes apply sm as k p i r)
    (hs : CommitsAt ms interferes apply sm as m q i s) :
    r.command = s.command ∧ r.seq = s.seq ∧ ∀ d, d ∈ r.deps ↔ d ∈ s.deps := by
  obtain ⟨a, -, hall⟩ := exists_play ms interferes apply sm as
  obtain ⟨hc, hv⟩ := hall hr
  obtain ⟨hc', hv'⟩ := hall hs
  have hsame : attrs r.seq r.deps = attrs s.seq s.deps := Option.some_inj.mp (hv.symm.trans hv')
  exact ⟨Option.some_inj.mp (hc.symm.trans hc'), congrArg Rounds.Attributes.seq hsame,
    Set.ext_iff.mp (congrArg Rounds.Attributes.deps hsame)⟩

/-- **Of two interfering commands that are committed, one depends on the other**, for every odd
number of replicas, three or more. -/
theorem interfering_depend (hodd : Odd ms.ids.length) (hthree : 3 ≤ ms.ids.length)
    (hsymm : ∀ x y, interferes x y = interferes y x) (hne : i ≠ j)
    (hr : CommitsAt ms interferes apply sm as k p i r)
    (hs : CommitsAt ms interferes apply sm as m q j s)
    (hint : interferes r.command s.command = true) : i ∈ s.deps ∨ j ∈ r.deps := by
  obtain ⟨a, hinv, hall⟩ := exists_play ms interferes apply sm as
  obtain ⟨hc, hv⟩ := hall hr
  obtain ⟨hc', hv'⟩ := hall hs
  exact hinv.dependent (fastQuorum_inter hodd hthree) hne hv hv' hc hc' hint
    ((hsymm _ _).trans hint)

end Agreement

/-- Two interfering commands, proposed at once at replicas `0` and `2`. -/
def twoAtOnce : List (EpxAct ℕ ℕ) :=
  .propose 0 7 :: .propose 2 8 :: List.replicate 20 (.deliver 0)

private lemma first_commits : CommitsAt threeReplicas (fun _ _ => true) (fun s c => s ++ [c]) []
    twoAtOnce 7 0 (0, 0) ⟨7, 1, [], .executed⟩ := ⟨by decide +kernel, .inr rfl⟩

/-- Replica `2` commits the first command later, and as its leader does. -/
theorem committed_agree_twoAtOnce : (7 : ℕ) = 7 ∧ (1 : ℕ) = 1 ∧
    ∀ d : Inst ℕ, d ∈ ([] : List (Inst ℕ)) ↔ d ∈ ([] : List (Inst ℕ)) :=
  committed_agree _ _ _ _ _ first_commits
    (show CommitsAt _ _ _ _ _ 22 2 _ ⟨7, 1, [], .executed⟩ from ⟨by decide +kernel, .inr rfl⟩)

/-- The second command depends on the first. -/
theorem interfering_depend_twoAtOnce :
    ((0, 0) : Inst ℕ) ∈ [((0, 0) : Inst ℕ)] ∨ ((2, 0) : Inst ℕ) ∈ ([] : List (Inst ℕ)) :=
  interfering_depend _ _ _ _ _ (by decide) (by decide) (fun _ _ => rfl) (by decide) first_commits
    (show CommitsAt _ _ _ _ _ 22 1 _ ⟨8, 2, [(0, 0)], .executed⟩ from
      ⟨by decide +kernel, .inr rfl⟩) rfl

end CrabScheme.Consensus
