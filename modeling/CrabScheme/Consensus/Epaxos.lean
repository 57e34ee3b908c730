import CrabScheme.Lib.Actions
import CrabScheme.Lib.Alist

/-!
# The EPaxos engine of the consensus library

The pure engine of `lib/consensus/epaxos.scm`, and a cluster of replicas over a network that
delivers every message at most once, in any order. Replica ids are symbols, compared by name: a
linear order is all the engine uses of them. The association lists with symbols for keys (a replica,
the record of a collect) are structures.
-/

namespace CrabScheme.Consensus

/-- An instance: `(replica . slot)`. -/
abbrev Inst (ι : Type) := ι × ℕ

/-- The status of an instance. -/
inductive Status
  | preaccepted
  | accepted
  | committed
  | executed
deriving DecidableEq, Repr

/-- `mk-rec`. -/
structure Rec (ι κ : Type) where
  command : κ
  seq : ℕ
  deps : List (Inst ι)
  status : Status
deriving DecidableEq, Repr

/-- What the leader of an instance collects. -/
structure Collect (ι κ : Type) where
  command : κ
  iseq : ℕ
  ideps : List (Inst ι)
  replies : ℕ
  agreed : ℕ
  useq : ℕ
  udeps : List (Inst ι)
  accepting : Bool
  oks : ℕ
deriving DecidableEq, Repr

/-- The messages of the protocol. -/
inductive Msg (ι κ : Type)
  | preaccept (inst : Inst ι) (command : κ) (seq : ℕ) (deps : List (Inst ι))
  | preacceptReply (inst : Inst ι) (seq : ℕ) (deps : List (Inst ι))
  | accept (inst : Inst ι) (command : κ) (seq : ℕ) (deps : List (Inst ι))
  | acceptReply (inst : Inst ι)
  | commit (inst : Inst ι) (command : κ) (seq : ℕ) (deps : List (Inst ι))
deriving DecidableEq, Repr

/-- **A replica.** -/
structure Epaxos (ι κ σ : Type) where
  id : ι
  replicas : List ι
  nextSlot : ℕ
  cmds : List (Inst ι × Rec ι κ)
  collects : List (Inst ι × Collect ι κ)
  interferes : κ → κ → Bool
  apply : σ → κ → σ
  sm : σ
  executed : List (Inst ι)

/-- `set-union`: the members of the second list are added to the first one by one. -/
def setUnion {α : Type} [DecidableEq α] (a b : List α) : List α := b.foldl (fun s x => s.insert x) a

section Replica

variable {ι κ σ : Type} [LinearOrder ι]

/-- `make-epaxos`. -/
def makeEpaxos (id : ι) (replicas : List ι) (interferes : κ → κ → Bool) (apply : σ → κ → σ)
    (sm : σ) : Epaxos ι κ σ :=
  ⟨id, replicas, 0, [], [], interferes, apply, sm, []⟩

/-- The collect after one more reply to `preaccept`. -/
def Collect.reply (col : Collect ι κ) (seq : ℕ)
    (deps : List (Inst ι)) : Collect ι κ :=
  { col with
    replies := 1 + col.replies
    agreed := col.agreed + if seq = col.iseq ∧ deps = col.ideps then 1 else 0
    useq := max col.useq seq
    udeps := setUnion col.udeps deps }

namespace Epaxos

variable (st : Epaxos ι κ σ)

/-- `cmds-get`. -/
def cmdsGet (inst : Inst ι) : Option (Rec ι κ) := Alist.get st.cmds inst

/-- `cmds-set`. -/
def cmdsSet (inst : Inst ι) (r : Rec ι κ) : Epaxos ι κ σ :=
  { st with cmds := Alist.replace st.cmds inst r }

/-- `collect-get`. -/
def collectGet (inst : Inst ι) : Option (Collect ι κ) := Alist.get st.collects inst

/-- `collect-set`. -/
def collectSet (inst : Inst ι) (col : Collect ι κ) : Epaxos ι κ σ :=
  { st with collects := Alist.replace st.collects inst col }

/-- `collect-del`. -/
def collectDel (inst : Inst ι) : Epaxos ι κ σ :=
  { st with collects := Alist.delete st.collects inst }

/-- `peers`. -/
def peers : List ι := st.replicas.filter fun p => decide (p ≠ st.id)

/-- `bcast`. -/
def bcast (msg : Msg ι κ) : List (ι × Msg ι κ) := st.peers.map fun p => (p, msg)

/-- `slow-quorum`. -/
def slowQuorum : ℕ := 1 + st.replicas.length / 2

/-- `fast-quorum`. -/
def fastQuorum : ℕ :=
  let f := (st.replicas.length - 1) / 2
  f + (f + 1) / 2

/-- One turn of the loop of `deps-and-seq`: the dependencies and the highest sequence number so
far, and the next entry. -/
def gather (command : κ) (exclude : Inst ι) (acc : List (Inst ι) × ℕ) (b : Inst ι × Rec ι κ) :
    List (Inst ι) × ℕ :=
  if b.1 = exclude ∨ st.interferes command b.2.command = false then acc
  else (acc.1.insert b.1, max acc.2 b.2.seq)

/-- `deps-and-seq`: a sequence number and dependencies for a command, from all known instances
that interfere with it. -/
def depsAndSeq (command : κ) (exclude : Inst ι) : ℕ × List (Inst ι) :=
  let found := st.cmds.foldl (st.gather command exclude) ([], 0)
  (found.2 + 1, found.1)

/-! ## Execution -/

/-- `committed-not-executed`. -/
def committedNotExecuted : List (Inst ι) :=
  ((st.cmds.filter fun b => decide (b.2.status = .committed)).map Prod.fst).reverse

/-- `dep-ok?`. -/
def depOk (dep : Inst ι) (elig : List (Inst ι)) : Bool :=
  (st.cmdsGet dep).any (fun r => decide (r.status = .executed)) || decide (dep ∈ elig)

/-- `rec-deps` of the record of an instance. -/
def depsOf (inst : Inst ι) : List (Inst ι) := ((st.cmdsGet inst).map Rec.deps).getD []

/-- `rec-seq` of the record of an instance. -/
def seqOf (inst : Inst ι) : ℕ := ((st.cmdsGet inst).map Rec.seq).getD 0

/-- `deps-ok?`. -/
def depsOk (inst : Inst ι) (elig : List (Inst ι)) : Bool :=
  (st.depsOf inst).all fun d => st.depOk d elig

/-- `filter-elig`. -/
def filterElig (elig : List (Inst ι)) : List (Inst ι) := elig.filter fun i => st.depsOk i elig

/-- `fixpoint-elig`. -/
def fixpointElig (elig : List (Inst ι)) : List (Inst ι) :=
  if (st.filterElig elig).length = elig.length then elig else fixpointElig (st.filterElig elig)
termination_by elig.length
decreasing_by
  have hle : (st.filterElig elig).length ≤ elig.length := List.length_filter_le _ _
  omega

/-- `inst-key<?`. -/
def instKeyLt (i j : Inst ι) : Bool :=
  if i.1 < j.1 then true else if j.1 < i.1 then false else decide (i.2 < j.2)

/-- `inst<?`: by sequence number, then by instance. -/
def instLt (i j : Inst ι) : Bool :=
  if st.seqOf i < st.seqOf j then true else if st.seqOf j < st.seqOf i then false
  else instKeyLt i j

/-- The instances that are ready. -/
def elig : List (Inst ι) := st.fixpointElig st.committedNotExecuted

/-- The order in which they run: `isort` of the ready ones. -/
def ordered : List (Inst ι) := st.elig.insertionSort fun i j => st.instLt i j = true

/-- One turn of the loop of `epaxos-execute`. -/
def executeOne (st : Epaxos ι κ σ) (inst : Inst ι) : Epaxos ι κ σ :=
  match st.cmdsGet inst with
  | none => st
  | some r =>
    if r.status = .executed then st
    else
      { st with
        sm := st.apply st.sm r.command
        cmds := Alist.replace st.cmds inst { r with status := .executed }
        executed := st.executed ++ [inst] }

/-- **`epaxos-execute`.** -/
def execute : Epaxos ι κ σ := st.ordered.foldl executeOne st

/-! ## Transitions -/

/-- **`epaxos-propose`.** -/
def propose (command : κ) : Epaxos ι κ σ × List (ι × Msg ι κ) :=
  let inst := (st.id, st.nextSlot)
  let (seq, deps) := st.depsAndSeq command inst
  let st := { st with nextSlot := st.nextSlot + 1 }
  let st := st.cmdsSet inst ⟨command, seq, deps, .preaccepted⟩
  let st := st.collectSet inst ⟨command, seq, deps, 1, 1, seq, deps, false, 1⟩
  (st, st.bcast (.preaccept inst command seq deps))

/-- `on-preaccept`. -/
def onPreaccept (sender : ι) (inst : Inst ι) (command : κ) (seq : ℕ) (deps : List (Inst ι)) :
    Epaxos ι κ σ × List (ι × Msg ι κ) :=
  let (lseq, ldeps) := st.depsAndSeq command inst
  let mseq := max seq lseq
  let mdeps := setUnion deps ldeps
  (st.cmdsSet inst ⟨command, mseq, mdeps, .preaccepted⟩,
    [(sender, .preacceptReply inst mseq mdeps)])

/-- `commit-leader`. -/
def commitLeader (inst : Inst ι) (command : κ) (seq : ℕ) (deps : List (Inst ι)) :
    Epaxos ι κ σ × List (ι × Msg ι κ) :=
  let st := st.collectDel inst
  let st := st.cmdsSet inst ⟨command, seq, deps, .committed⟩
  let st := st.execute
  (st, st.bcast (.commit inst command seq deps))

/-- `on-preaccept-reply`. -/
def onPreacceptReply (inst : Inst ι) (seq : ℕ) (deps : List (Inst ι)) :
    Epaxos ι κ σ × List (ι × Msg ι κ) :=
  match st.collectGet inst with
  | none => (st, [])
  | some col =>
    if col.accepting then (st, [])
    else
      let col := col.reply seq deps
      let st := st.collectSet inst col
      if col.replies < st.fastQuorum then (st, [])
      else if st.fastQuorum ≤ col.agreed then
        st.commitLeader inst col.command col.iseq col.ideps
      else
        let st := st.collectSet inst { col with accepting := true }
        let st := st.cmdsSet inst ⟨col.command, col.useq, col.udeps, .accepted⟩
        (st, st.bcast (.accept inst col.command col.useq col.udeps))

/-- `on-accept`. -/
def onAccept (sender : ι) (inst : Inst ι) (command : κ) (seq : ℕ) (deps : List (Inst ι)) :
    Epaxos ι κ σ × List (ι × Msg ι κ) :=
  (st.cmdsSet inst ⟨command, seq, deps, .accepted⟩, [(sender, .acceptReply inst)])

/-- `on-accept-reply`. -/
def onAcceptReply (inst : Inst ι) : Epaxos ι κ σ × List (ι × Msg ι κ) :=
  match st.collectGet inst with
  | none => (st, [])
  | some col =>
    if col.accepting then
      let col := { col with oks := 1 + col.oks }
      let st := st.collectSet inst col
      if st.slowQuorum ≤ col.oks then st.commitLeader inst col.command col.useq col.udeps
      else (st, [])
    else (st, [])

/-- `on-commit`. -/
def onCommit (inst : Inst ι) (command : κ) (seq : ℕ) (deps : List (Inst ι)) :
    Epaxos ι κ σ × List (ι × Msg ι κ) :=
  ((st.cmdsSet inst ⟨command, seq, deps, .committed⟩).execute, [])

/-- **`epaxos-step`.** -/
def step (sender : ι) : Msg ι κ → Epaxos ι κ σ × List (ι × Msg ι κ)
  | .preaccept inst command seq deps => st.onPreaccept sender inst command seq deps
  | .preacceptReply inst seq deps => st.onPreacceptReply inst seq deps
  | .accept inst command seq deps => st.onAccept sender inst command seq deps
  | .acceptReply inst => st.onAcceptReply inst
  | .commit inst command seq deps => st.onCommit inst command seq deps

/-! ## Records -/

section Records

variable {st : Epaxos ι κ σ} {inst i j : Inst ι}

@[simp] lemma cmdsGet_cmdsSet (r : Rec ι κ) :
    (st.cmdsSet inst r).cmdsGet i = if i = inst then some r else st.cmdsGet i :=
  Alist.get_replace i

@[simp] lemma collectGet_collectSet (col : Collect ι κ) :
    (st.collectSet inst col).collectGet i = if i = inst then some col else st.collectGet i :=
  Alist.get_replace i

@[simp] lemma collectGet_collectDel :
    (st.collectDel inst).collectGet i = if i = inst then none else st.collectGet i :=
  Alist.get_delete i

lemma mem_setUnion {α : Type} [DecidableEq α] {a b : List α} {x : α} :
    x ∈ setUnion a b ↔ x ∈ a ∨ x ∈ b := by
  unfold setUnion
  induction b generalizing a with
  | nil => simp
  | cons y b ih =>
    rw [List.foldl_cons, ih, List.mem_insert_iff, List.mem_cons]
    tauto

lemma foldl_gather {command : κ} {r : Rec ι κ} (hne : i ≠ inst)
    (hinter : st.interferes command r.command = true) (l : List (Inst ι × Rec ι κ))
    (acc : List (Inst ι) × ℕ) (h : (i ∈ acc.1 ∧ r.seq ≤ acc.2) ∨ (i, r) ∈ l) :
    i ∈ (l.foldl (st.gather command inst) acc).1 ∧
      r.seq ≤ (l.foldl (st.gather command inst) acc).2 := by
  induction l generalizing acc with
  | nil => exact h.resolve_right List.not_mem_nil
  | cons b l ih =>
    refine ih _ ?_
    rcases h with ⟨hd, hs⟩ | h
    · refine .inl ?_
      unfold gather
      split
      · exact ⟨hd, hs⟩
      · exact ⟨List.mem_insert_of_mem hd, hs.trans (le_max_left _ _)⟩
    · rcases List.mem_cons.mp h with rfl | h
      · refine .inl ?_
        rw [gather, if_neg (by simp [hne, hinter])]
        exact ⟨List.mem_insert_self, le_max_right _ _⟩
      · exact .inr h

lemma depsAndSeq_covers {command : κ} {r : Rec ι κ} (hi : st.cmdsGet i = some r) (hne : i ≠ inst)
    (hinter : st.interferes command r.command = true) :
    i ∈ (st.depsAndSeq command inst).2 ∧ r.seq < (st.depsAndSeq command inst).1 := by
  obtain ⟨hd, hs⟩ := foldl_gather hne hinter st.cmds ([], 0) (.inr (Alist.mem_of_get hi))
  exact ⟨hd, Nat.lt_succ_of_le hs⟩

end Records

/-! ## What an execution does -/

section Execution

variable {st : Epaxos ι κ σ} {i j d : Inst ι}

lemma fixpointElig_sublist (l : List (Inst ι)) : (st.fixpointElig l).Sublist l := by
  fun_induction fixpointElig with
  | case1 => exact List.Sublist.refl _
  | case2 l _ ih => exact ih.trans List.filter_sublist

lemma depsOk_fixpointElig (l : List (Inst ι)) (hi : i ∈ st.fixpointElig l) :
    st.depsOk i (st.fixpointElig l) = true := by
  fun_induction fixpointElig with
  | case1 l h =>
    have hall : st.filterElig l = l := List.filter_sublist.eq_of_length h
    rw [← hall] at hi
    exact (List.mem_filter.mp hi).2
  | case2 l _ ih => exact ih hi

/-- The records of a replica are under distinct instances. -/
def Distinct (st : Epaxos ι κ σ) : Prop := (st.cmds.map Prod.fst).Nodup

lemma mem_committedNotExecuted (hst : st.Distinct) :
    i ∈ st.committedNotExecuted ↔ ∃ r, st.cmdsGet i = some r ∧ r.status = .committed := by
  simp only [committedNotExecuted, List.mem_reverse, List.mem_map, List.mem_filter,
    decide_eq_true_eq]
  constructor
  · rintro ⟨⟨j, r⟩, ⟨hmem, hr⟩, rfl⟩
    exact ⟨r, Alist.get_of_mem hst hmem, hr⟩
  · rintro ⟨r, hi, hr⟩
    exact ⟨(i, r), ⟨Alist.mem_of_get hi, hr⟩, rfl⟩

lemma committed_of_mem_elig (hst : st.Distinct) (hi : i ∈ st.elig) :
    ∃ r, st.cmdsGet i = some r ∧ r.status = .committed :=
  (mem_committedNotExecuted hst).mp ((fixpointElig_sublist _).subset hi)

lemma nodup_elig (hst : st.Distinct) : st.elig.Nodup := by
  refine (fixpointElig_sublist _).nodup (List.nodup_reverse.mpr ?_)
  exact (List.filter_sublist.map _).nodup hst

lemma elig_closed {r : Rec ι κ} (hi : i ∈ st.elig) (hr : st.cmdsGet i = some r) (hd : d ∈ r.deps) :
    (∃ r', st.cmdsGet d = some r' ∧ r'.status = .executed) ∨ d ∈ st.elig := by
  have hok := depsOk_fixpointElig _ hi
  simp only [depsOk, List.all_eq_true, depsOf, hr] at hok
  have := hok d hd
  simp only [depOk, Bool.or_eq_true, Option.any_eq_true, decide_eq_true_eq] at this
  exact this

/-- The place of an instance in the order of execution. -/
def place (st : Epaxos ι κ σ) (i : Inst ι) : ℕ ×ₗ (ι ×ₗ ℕ) := toLex (st.seqOf i, toLex i)

lemma instLt_iff : st.instLt i j = true ↔ st.place i < st.place j := by
  simp only [instLt, place, Prod.Lex.toLex_lt_toLex, instKeyLt]
  split
  · next h => simp [h]
  · next h =>
    split
    · next h' => simp [h, h'.ne']
    · have heq : st.seqOf i = st.seqOf j := by omega
      split
      · next hr => simp [heq, hr]
      · next hr =>
        split
        · next hr' => simp [heq, hr, hr'.ne']
        · next hr' => simp [heq, le_antisymm (not_lt.mp hr') (not_lt.mp hr)]

lemma place_injective : Function.Injective st.place := by
  intro i j h
  simpa [place] using congrArg (fun p => ofLex (ofLex p).2) h

lemma pairwise_orderedInsert {α : Type} {lt : α → α → Prop} [DecidableRel lt]
    (htrans : ∀ {a b c}, lt a b → lt b c → lt a c) (htotal : ∀ {a b}, a ≠ b → ¬ lt a b → lt b a)
    {x : α} {l : List α} (hx : x ∉ l) (hl : l.Pairwise lt) :
    (l.orderedInsert lt x).Pairwise lt := by
  induction l with
  | nil => simp
  | cons y l ih =>
    rw [List.mem_cons, not_or] at hx
    rw [List.pairwise_cons] at hl
    rw [List.orderedInsert_cons]
    split
    · next hxy =>
      refine List.pairwise_cons.mpr ⟨fun z hz => ?_, List.pairwise_cons.mpr hl⟩
      rcases List.mem_cons.mp hz with rfl | hz
      · exact hxy
      · exact htrans hxy (hl.1 z hz)
    · next hxy =>
      refine List.pairwise_cons.mpr ⟨fun z hz => ?_, ih hx.2 hl.2⟩
      rcases (List.mem_orderedInsert lt).mp hz with rfl | hz
      · exact htotal hx.1 hxy
      · exact hl.1 z hz

lemma ordered_perm : st.ordered.Perm st.elig := List.perm_insertionSort _ _

lemma ordered_pairwise (hst : st.Distinct) :
    st.ordered.Pairwise fun i j => st.place i < st.place j := by
  suffices h : ∀ l : List (Inst ι), l.Nodup →
      (l.insertionSort fun i j => st.instLt i j = true).Pairwise
        fun i j => st.instLt i j = true from
    (h _ (nodup_elig hst)).imp instLt_iff.mp
  intro l
  induction l with
  | nil => exact fun _ => List.Pairwise.nil
  | cons x l ih =>
    intro hl
    rw [List.nodup_cons] at hl
    refine pairwise_orderedInsert (fun {a b c} hab hbc => ?_) (fun {a b} hne hab => ?_)
      (fun hmem => hl.1 ((List.mem_insertionSort _).mp hmem)) (ih hl.2)
    · exact instLt_iff.mpr ((instLt_iff.mp hab).trans (instLt_iff.mp hbc))
    · rw [instLt_iff, not_lt] at hab
      exact instLt_iff.mpr (hab.lt_of_ne fun h => hne (place_injective h).symm)

/-- **What running a list of instances does**: they are appended to the trace and their records
say so; everything else stays. -/
structure Ran (st st' : Epaxos ι κ σ) (l : List (Inst ι)) : Prop where
  id : st'.id = st.id
  replicas : st'.replicas = st.replicas
  nextSlot : st'.nextSlot = st.nextSlot
  collects : st'.collects = st.collects
  interferes : st'.interferes = st.interferes
  executed : st'.executed = st.executed ++ l
  cmdsGet : ∀ i, st'.cmdsGet i =
    if i ∈ l then (st.cmdsGet i).map (fun r => { r with status := .executed }) else st.cmdsGet i
  distinct : st.Distinct → st'.Distinct

lemma foldl_executeOne {l : List (Inst ι)} (hl : l.Nodup)
    (hall : ∀ i ∈ l, ∃ r, st.cmdsGet i = some r ∧ r.status = .committed) :
    Ran st (l.foldl executeOne st) l := by
  induction l generalizing st with
  | nil => exact ⟨rfl, rfl, rfl, rfl, rfl, by simp, by simp, fun h => h⟩
  | cons x l ih =>
    rw [List.nodup_cons] at hl
    obtain ⟨r, hx, hr⟩ := hall x List.mem_cons_self
    have hget : ∀ i, (st.executeOne x).cmdsGet i =
        if i = x then some { r with status := .executed } else st.cmdsGet i := by
      intro i
      simp only [executeOne, hx, hr]
      exact Alist.get_replace i
    have hrest : ∀ i ∈ l, ∃ r, (st.executeOne x).cmdsGet i = some r ∧ r.status = .committed := by
      intro i hi
      have hne : i ≠ x := by
        rintro rfl
        exact hl.1 hi
      rw [hget, if_neg hne]
      exact hall i (List.mem_cons_of_mem x hi)
    have hran := ih hl.2 hrest
    have hone : (st.executeOne x).executed = st.executed ++ [x] := by simp [executeOne, hx, hr]
    refine ⟨hran.id.trans ?_, hran.replicas.trans ?_, hran.nextSlot.trans ?_,
      hran.collects.trans ?_, hran.interferes.trans ?_, ?_, fun i => ?_, fun h => hran.distinct ?_⟩
    · simp [executeOne, hx, hr]
    · simp [executeOne, hx, hr]
    · simp [executeOne, hx, hr]
    · simp [executeOne, hx, hr]
    · simp [executeOne, hx, hr]
    · rw [List.foldl_cons, hran.executed, hone, List.append_assoc, List.singleton_append]
    · rw [List.foldl_cons, hran.cmdsGet, hget]
      by_cases hi : i = x
      · subst hi
        simp [hx]
      · simp [hi]
    · simpa [Distinct, executeOne, hx, hr] using Alist.nodup_replace h

/-- **What an execution does**: it runs the ready instances, in the order of their places. -/
lemma execute_ran (hst : st.Distinct) : Ran st st.execute st.ordered :=
  foldl_executeOne (ordered_perm.nodup_iff.mpr (nodup_elig hst)) fun _ hi =>
    committed_of_mem_elig hst (ordered_perm.mem_iff.mp hi)

end Execution

/-! ## What a transition does -/

/-- The record a message makes a replica write. -/
def writes : Msg ι κ → Option (Inst ι × Rec ι κ)
  | .preaccept inst command seq deps =>
    let found := st.depsAndSeq command inst
    some (inst, ⟨command, max seq found.1, setUnion deps found.2, .preaccepted⟩)
  | .preacceptReply inst seq deps =>
    (st.collectGet inst).bind fun col =>
      if col.accepting then none
      else if (col.reply seq deps).replies < st.fastQuorum then none
      else if st.fastQuorum ≤ (col.reply seq deps).agreed then
        some (inst, ⟨col.command, col.iseq, col.ideps, .committed⟩)
      else
        some (inst, ⟨col.command, (col.reply seq deps).useq, (col.reply seq deps).udeps, .accepted⟩)
  | .accept inst command seq deps => some (inst, ⟨command, seq, deps, .accepted⟩)
  | .acceptReply inst =>
    (st.collectGet inst).bind fun col =>
      if col.accepting ∧ st.slowQuorum ≤ 1 + col.oks then
        some (inst, ⟨col.command, col.useq, col.udeps, .committed⟩)
      else none
  | .commit inst command seq deps => some (inst, ⟨command, seq, deps, .committed⟩)

/-- The record is written, and what is ready runs if it says that the instance is committed. -/
def written (st : Epaxos ι κ σ) : Option (Inst ι × Rec ι κ) → Epaxos ι κ σ
  | none => st
  | some (inst, r) =>
    if r.status = .committed then (st.cmdsSet inst r).execute else st.cmdsSet inst r

/-- **What a message does**: apart from the collects, one record is written. -/
lemma step_eq (sender : ι) (msg : Msg ι κ) : ∃ collects,
    (st.step sender msg).1 = ({ st with collects := collects } : Epaxos ι κ σ).written
      (st.writes msg) := by
  cases msg with
  | preaccept inst command seq deps => exact ⟨st.collects, rfl⟩
  | preacceptReply inst seq deps =>
    simp only [step, onPreacceptReply, writes]
    split
    · next hget => exact ⟨st.collects, by rw [hget]; rfl⟩
    · next col hget =>
      have hfast : (st.collectSet inst (col.reply seq deps)).fastQuorum = st.fastQuorum := rfl
      simp only [hget, Option.bind_some, hfast]
      split
      · exact ⟨st.collects, rfl⟩
      · split
        · exact ⟨_, rfl⟩
        · split
          · exact ⟨_, rfl⟩
          · exact ⟨_, rfl⟩
  | accept inst command seq deps => exact ⟨st.collects, rfl⟩
  | acceptReply inst =>
    simp only [step, onAcceptReply, writes]
    split
    · next hget => exact ⟨st.collects, by rw [hget]; rfl⟩
    · next col hget =>
      have hslow : (st.collectSet inst { col with oks := 1 + col.oks }).slowQuorum =
        st.slowQuorum := rfl
      simp only [hget, Option.bind_some, hslow]
      by_cases hacc : col.accepting = true
      · by_cases hoks : st.slowQuorum ≤ 1 + col.oks
        · simp only [hacc, hoks]
          exact ⟨_, rfl⟩
        · simp only [hacc, hoks]
          exact ⟨_, rfl⟩
      · simp only [hacc]
        exact ⟨st.collects, rfl⟩
  | commit inst command seq deps => exact ⟨st.collects, rfl⟩

end Epaxos

/-! ## The cluster -/

/-- The ids of the replicas of a cluster. -/
structure Members (ι : Type) where
  ids : List ι
  nodup : ids.Nodup

/-- A message on its way: sender, receiver, contents. -/
structure Envelope (ι κ : Type) where
  sender : ι
  receiver : ι
  msg : Msg ι κ
deriving DecidableEq, Repr

/-- **A cluster**: the replicas by id, and the messages that are sent and not delivered. -/
structure EpxCluster (ι κ σ : Type) where
  nodes : List (ι × Epaxos ι κ σ)
  net : List (Envelope ι κ)

/-- What happens in a cluster: a command is proposed at a replica, or one message is delivered. -/
inductive EpxAct (ι κ : Type)
  | propose (id : ι) (command : κ)
  | deliver (k : ℕ)

/-- `epx-make`. -/
def epxMake (ms : Members ι) (interferes : κ → κ → Bool) (apply : σ → κ → σ) (sm : σ) :
    EpxCluster ι κ σ :=
  ⟨ms.ids.map fun id => (id, makeEpaxos id ms.ids interferes apply sm), []⟩

namespace EpxCluster

variable (c : EpxCluster ι κ σ)

/-- `epx-get`. -/
def get (id : ι) : Option (Epaxos ι κ σ) := Alist.get c.nodes id

/-- The replica `id` has made a transition, after which `net` and its outputs are on their way. -/
def put (id : ι) (net : List (Envelope ι κ)) (res : Epaxos ι κ σ × List (ι × Msg ι κ)) :
    EpxCluster ι κ σ :=
  ⟨Alist.replace c.nodes id res.1, net ++ res.2.map fun o => ⟨id, o.1, o.2⟩⟩

/-- **One step of the cluster**: a message that is delivered is no longer on its way. -/
def step : EpxAct ι κ → EpxCluster ι κ σ → EpxCluster ι κ σ
  | .propose id command, c =>
    match c.get id with
    | none => c
    | some st => c.put id c.net (st.propose command)
  | .deliver k, c =>
    match c.net[k]? with
    | none => c
    | some e =>
      match c.get e.receiver with
      | none => c
      | some st => c.put e.receiver (c.net.eraseIdx k) (st.step e.sender e.msg)

end EpxCluster

end Replica

end CrabScheme.Consensus
