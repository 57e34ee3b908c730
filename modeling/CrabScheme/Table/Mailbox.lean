import CrabScheme.Lib.Actions
import CrabScheme.Lib.Sorted

/-!
# The mailbox on an ordered table

`Mailbox` of `cs-table`: senders push under fresh sequence numbers, one receiver pops the smallest
key. The steps are the atomic ones of the source: loads and stores of the flag `open`, the
`fetch_add` on the counter, the operations of the table under its lock, and what is done under the
lock of the condition variable. Any number of senders take their steps in any order with those of
the receiver and of `close`.

A notification has no effect of its own here: a receiver that waits may wake at any time, by a
notification, by its heartbeat of 250 ms or for no reason.

Every push that finds the mailbox open is recorded with its sender and its number among the pushes
of that sender; the mailbox also keeps what was popped and what was pushed before the close. These
records are for the statements only.

## Main results

* `Mailbox.Inv.step` — one step keeps the invariant.
* `mailbox_delivers` — the guarantees hold in every state of every run of such steps.
-/

namespace CrabScheme.Table

/-- A push: its sender, its number among the pushes of the sender, and the payload. -/
structure Entry (ι α : Type) where
  sender : ι
  nth : ℕ
  payload : α
deriving DecidableEq, Repr

/-- **Where a sender is** in `push`. -/
inductive Sender (ι α : Type)
  | idle
  /-- `open` was true. -/
  | admitted (e : Entry ι α)
  /-- The sequence number is taken. -/
  | numbered (e : Entry ι α) (seq : ℕ)
  /-- The payload is in the table. -/
  | inserted (e : Entry ι α)
deriving DecidableEq, Repr

/-- The number of a push that is not in the table yet. -/
def Sender.pending {ι α : Type} : Sender ι α → List ℕ
  | .admitted e | .numbered e _ => [e.nth]
  | _ => []

/-- **Where the receiver is** in `pop_or_wait`; `timed` says whether there is a deadline. -/
inductive Receiver (ι α : Type)
  | idle
  /-- Before `try_pop`. -/
  | popping (timed : Bool)
  /-- The table was empty; before the first load of `open`. -/
  | checking (timed : Bool)
  | locking (timed : Bool)
  /-- With the lock, before `len`. -/
  | counting (timed : Bool)
  /-- With the lock, the table was empty; before the second load of `open`. -/
  | rechecking (timed : Bool)
  | waiting (timed : Bool)
  | returned (timed : Bool) (result : Option (Entry ι α))
deriving DecidableEq, Repr

/-- **A mailbox** with its senders and its receiver. -/
structure Mailbox (ι α : Type) where
  storage : SortedMap ℤ (Entry ι α)
  nextSeq : ℕ
  isOpen : Bool
  senders : ι → Sender ι α
  receiver : Receiver ι α
  /-- How many pushes of a sender found the mailbox open. -/
  begun : ι → ℕ
  /-- What was popped, in order. -/
  popped : List (Entry ι α)
  /-- The pushes that returned `Ok` before the mailbox was closed. -/
  pushed : List (Entry ι α)

/-- The steps of the senders, of the receiver and of `close`. -/
inductive Act (ι α : Type)
  /-- A sender calls `push` and loads `open`. -/
  | push (s : ι) (payload : α)
  /-- A sender takes the next step of its `push`. -/
  | advance (s : ι)
  | tryPop
  /-- The receiver calls `pop_or_wait`. -/
  | popOrWait (timed : Bool)
  /-- The receiver takes the next step of `pop_or_wait`. -/
  | receive
  /-- The deadline has passed when the receiver looks at the clock, right after it has locked. -/
  | expire
  /-- The store of `close`. -/
  | close
deriving DecidableEq, Repr

/-- `seq as i64`, the key of a sequence number. -/
def keyOf (seq : ℕ) : ℤ := (seq : ℤ).bmod (2 ^ 64)

lemma keyOf_eq {q : ℕ} (h : q < 2 ^ 63) : keyOf q = q := by
  unfold keyOf
  rw [Int.bmod_eq_of_le (by omega) (by omega)]

namespace Mailbox

variable {ι α : Type}

/-- A new mailbox. -/
def create : Mailbox ι α where
  storage := .empty
  nextSeq := 0
  isOpen := true
  senders := fun _ => .idle
  receiver := .idle
  begun := fun _ => 0
  popped := []
  pushed := []

/-- The receiver holds the lock of the condition variable. -/
def locked (m : Mailbox ι α) : Bool :=
  match m.receiver with
  | .counting _ | .rechecking _ => true
  | _ => false

/-- `try_pop`: the entry with the smallest key, if there is one. -/
def pop (m : Mailbox ι α) : Option (Entry ι α) × Mailbox ι α :=
  match m.storage.entries.head? with
  | some (_, e) => (some e, { m with storage := m.storage.tail, popped := m.popped ++ [e] })
  | none => (none, m)

/-- The receiver comes to a place. -/
def goto (m : Mailbox ι α) (r : Receiver ι α) : Mailbox ι α := { m with receiver := r }

/-- The next step of `pop_or_wait`. -/
def receive (m : Mailbox ι α) : Mailbox ι α :=
  match m.receiver with
  | .popping t =>
    match m.pop with
    | (some e, m') => m'.goto (.returned t (some e))
    | (none, m') => m'.goto (.checking t)
  | .checking t => m.goto (if m.isOpen then .locking t else .returned t none)
  | .locking t => m.goto (.counting t)
  | .counting t => m.goto (if m.storage.entries.length > 0 then .popping t else .rechecking t)
  | .rechecking t => m.goto (if m.isOpen then .waiting t else .returned t none)
  | .waiting t => m.goto (.popping t)
  | .idle | .returned _ _ => m

/-- The receiver is not in a call. -/
def receiverFree (m : Mailbox ι α) : Bool :=
  match m.receiver with
  | .idle | .returned _ _ => true
  | _ => false

variable [DecidableEq ι]

/-- The load of `open` at the beginning of `push` was true. -/
@[simps storage nextSeq isOpen receiver popped pushed]
def letIn (m : Mailbox ι α) (s : ι) (x : α) : Mailbox ι α :=
  { m with
    senders := Function.update m.senders s (.admitted ⟨s, m.begun s, x⟩)
    begun := Function.update m.begun s (m.begun s + 1) }

/-- The `fetch_add` on the counter. -/
@[simps storage isOpen receiver begun popped pushed]
def number (m : Mailbox ι α) (s : ι) (e : Entry ι α) : Mailbox ι α :=
  { m with
    senders := Function.update m.senders s (.numbered e m.nextSeq)
    nextSeq := (m.nextSeq + 1) % 2 ^ 64 }

/-- The insertion into the table. -/
@[simps nextSeq isOpen receiver begun popped pushed]
def store (m : Mailbox ι α) (s : ι) (e : Entry ι α) (seq : ℕ) : Mailbox ι α :=
  { m with
    senders := Function.update m.senders s (.inserted e)
    storage := m.storage.insert (keyOf seq) e }

/-- The notification, under the lock, and the return of `Ok`. -/
@[simps storage nextSeq isOpen receiver begun popped]
def finish (m : Mailbox ι α) (s : ι) (e : Entry ι α) : Mailbox ι α :=
  { m with
    senders := Function.update m.senders s .idle
    pushed := if m.isOpen then m.pushed ++ [e] else m.pushed }

/-- The next step of a `push`. -/
def advance (m : Mailbox ι α) (s : ι) : Mailbox ι α :=
  match m.senders s with
  | .idle => m
  | .admitted e => m.number s e
  | .numbered e seq => m.store s e seq
  | .inserted e => if m.locked then m else m.finish s e

/-- **One atomic step.** -/
def step (a : Act ι α) (m : Mailbox ι α) : Mailbox ι α :=
  match a with
  | .push s x =>
    match m.senders s with
    | .idle => if m.isOpen then m.letIn s x else m
    | _ => m
  | .advance s => m.advance s
  | .tryPop => if m.receiverFree then (m.goto .idle).pop.2 else m
  | .popOrWait t => if m.receiverFree then m.goto (.popping t) else m
  | .receive => m.receive
  | .expire =>
    match m.receiver with
    | .counting true => m.goto (.returned true none)
    | _ => m
  | .close => { m with isOpen := false }

/-! ## The guarantees -/

/-- The entries of one sender. -/
def ofSender (s : ι) (l : List (Entry ι α)) : List (Entry ι α) := l.filter fun e => e.sender = s

/-- **The guarantees of delivery**: the pushes of a sender are popped one after the other from the
first on; no push is popped twice; and `pop_or_wait` without a deadline has returned `None` only if
the mailbox is closed and holds nothing that was pushed before. -/
structure Delivers (m : Mailbox ι α) : Prop where
  inOrder : ∀ s, ∃ n, (ofSender s m.popped).map Entry.nth = List.range n
  once : m.popped.Nodup
  drained : m.receiver = .returned false none →
    m.isOpen = false ∧ ∀ kv ∈ m.storage.entries, kv.2 ∉ m.pushed

/-- The receiver of a call without a deadline has found the table empty and is about to look at
`open`. -/
def sawEmpty (m : Mailbox ι α) : Bool :=
  match m.receiver with
  | .checking false | .rechecking false => true
  | _ => false

/-- **The steps that keep the guarantees**: sequence numbers are positive as `i64`, and the mailbox
is not closed between the moment when the receiver finds the table empty and the one when it looks
at the flag, unless nothing was pushed in between. -/
def Timely (m : Mailbox ι α) (a : Act ι α) : Prop :=
  match a with
  | .advance s =>
    match m.senders s with
    | .admitted _ => m.nextSeq < 2 ^ 63
    | _ => True
  | .close => m.isOpen = true → m.sawEmpty = true → ∀ kv ∈ m.storage.entries, kv.2 ∉ m.pushed
  | _ => True

instance [DecidableEq α] (m : Mailbox ι α) (a : Act ι α) : Decidable (m.Timely a) := by
  unfold Timely
  split
  · split <;> infer_instance
  · infer_instance
  · infer_instance

/-! ## The invariant -/

/-- The push of a sender that is not in the table yet. -/
def pending (m : Mailbox ι α) (s : ι) : List ℕ := (m.senders s).pending

/-- What is known of a sender at each place of `push`. -/
def SenderOk (m : Mailbox ι α) (s : ι) : Sender ι α → Prop
  | .idle => True
  | .admitted e => e.sender = s
  | .numbered e q => e.sender = s ∧ q < m.nextSeq ∧ (∀ kv ∈ m.storage.entries, kv.1 ≠ q) ∧
      ∀ kv ∈ m.storage.entries, kv.2.sender = s → kv.1 < q
  | .inserted e => e.sender = s ∧ e.nth < m.begun s

/-- **The invariant.** The pushes of a sender are, in their order, those that were popped, those in
the table in the order of their keys, and the one that is on its way. -/
structure Inv (m : Mailbox ι α) : Prop where
  order : ∀ s, (ofSender s m.popped).map Entry.nth ++
    (ofSender s (m.storage.entries.map Prod.snd)).map Entry.nth ++ m.pending s =
      List.range (m.begun s)
  keys : ∀ kv ∈ m.storage.entries, kv.1 < m.nextSeq
  small : m.nextSeq ≤ 2 ^ 63
  senders : ∀ s, m.SenderOk s (m.senders s)
  distinct : ∀ {s s' e e' q}, m.senders s = .numbered e q → m.senders s' = .numbered e' q → s = s'
  pushed : ∀ e ∈ m.pushed, e.nth + (m.pending e.sender).length < m.begun e.sender
  seen : m.sawEmpty = true → m.isOpen = true ∨ ∀ kv ∈ m.storage.entries, kv.2 ∉ m.pushed
  drained : m.receiver = .returned false none →
    m.isOpen = false ∧ ∀ kv ∈ m.storage.entries, kv.2 ∉ m.pushed

variable {m : Mailbox ι α} {s : ι} {e : Entry ι α}

@[grind =] lemma letIn_senders (x : α) (s' : ι) : (m.letIn s x).senders s' =
    if s' = s then .admitted ⟨s, m.begun s, x⟩ else m.senders s' := Function.update_apply _ _ _ _

@[grind =] lemma letIn_begun (x : α) (s' : ι) : (m.letIn s x).begun s' =
    if s' = s then m.begun s + 1 else m.begun s' := Function.update_apply _ _ _ _

@[grind =] lemma number_senders (s' : ι) : (m.number s e).senders s' =
    if s' = s then .numbered e m.nextSeq else m.senders s' := Function.update_apply _ _ _ _

@[grind =] lemma store_senders (q : ℕ) (s' : ι) : (m.store s e q).senders s' =
    if s' = s then .inserted e else m.senders s' := Function.update_apply _ _ _ _

@[grind =] lemma finish_senders (s' : ι) : (m.finish s e).senders s' =
    if s' = s then .idle else m.senders s' := Function.update_apply _ _ _ _

attribute [grind =] pending Sender.pending SenderOk letIn_storage letIn_nextSeq letIn_isOpen
  letIn_popped letIn_pushed number_storage number_begun number_popped number_pushed store_nextSeq
  store_begun store_popped store_pushed finish_storage finish_isOpen finish_nextSeq finish_begun finish_popped

lemma inv_create : Inv (create : Mailbox ι α) where
  order := by simp [create, ofSender, pending, Sender.pending, SortedMap.empty]
  keys := by simp [create, SortedMap.empty]
  small := by simp [create]
  senders := fun _ => trivial
  distinct := by simp [create]
  pushed := by simp [create]
  seen := by simp [create, sawEmpty]
  drained := by simp [create]

lemma eq_range_of_append {l l' : List ℕ} {n : ℕ} (h : l ++ l' = List.range n) :
    l = List.range l.length := by
  have hlen := congrArg List.length h
  have htake := congrArg (List.take l.length) h
  rw [List.take_left, List.take_range] at htake
  rw [List.length_append, List.length_range] at hlen
  rwa [Nat.min_eq_left (by omega)] at htake

lemma Inv.delivers (h : Inv m) : m.Delivers := by
  have hrange : ∀ s, (ofSender s m.popped).map Entry.nth =
      List.range ((ofSender s m.popped).map Entry.nth).length := fun s => by
    have horder := h.order s
    rw [List.append_assoc] at horder
    exact eq_range_of_append horder
  classical
  refine ⟨fun s => ⟨_, hrange s⟩, List.nodup_iff_count_le_one.mpr fun e => ?_, h.drained⟩
  -- an entry is counted among those of its sender
  have hnodup : (ofSender e.sender m.popped).Nodup :=
    .of_map Entry.nth (hrange e.sender ▸ List.nodup_range)
  have hcount : m.popped.count e = (ofSender e.sender m.popped).count e :=
    (List.count_filter (by simp)).symm
  rw [hcount]
  exact List.nodup_iff_count_le_one.mp hnodup e

/-! ### Steps -/

lemma Inv.goto (h : Inv m) {r : Receiver ι α}
    (hseen : (m.goto r).sawEmpty = true →
      m.isOpen = true ∨ ∀ kv ∈ m.storage.entries, kv.2 ∉ m.pushed)
    (hdrained : r = .returned false none →
      m.isOpen = false ∧ ∀ kv ∈ m.storage.entries, kv.2 ∉ m.pushed) : Inv (m.goto r) where
  order := h.order
  keys := h.keys
  small := h.small
  senders := h.senders
  distinct := h.distinct
  pushed := h.pushed
  seen := hseen
  drained := hdrained

/-- **`try_pop`** moves the first entry to the end of what was popped. -/
lemma Inv.pop (h : Inv m) (hfree : m.sawEmpty = false)
    (hret : m.receiver ≠ .returned false none) : Inv m.pop.2 := by
  unfold Mailbox.pop
  cases hhead : m.storage.entries.head? with
  | none => exact h
  | some kv =>
    obtain ⟨k, e⟩ := kv
    have hentries : m.storage.entries = (k, e) :: m.storage.tail.entries :=
      (List.cons_head?_tail (by rw [hhead]; rfl)).symm
    have hsub : ∀ {kv}, kv ∈ m.storage.tail.entries → kv ∈ m.storage.entries := fun hkv => by
      rw [hentries]
      exact List.mem_cons_of_mem _ hkv
    refine ⟨fun s => ?_, fun kv hkv => h.keys kv (hsub hkv), h.small, fun s => ?_, h.distinct,
      h.pushed, fun hs => ?_, fun hr => absurd hr hret⟩
    · have horder := h.order s
      rw [hentries] at horder
      rw [← horder]
      by_cases hs : e.sender = s
      · simp [ofSender, hs, Mailbox.pending]
      · simp [ofSender, hs, Mailbox.pending]
    · have hok := h.senders s
      revert hok
      cases m.senders s with
      | numbered e' q =>
        rintro ⟨he, hq, hfresh, hlast⟩
        exact ⟨he, hq, fun kv hkv => hfresh kv (hsub hkv), fun kv hkv => hlast kv (hsub hkv)⟩
      | _ => exact id
    · have hs' : m.sawEmpty = true := hs
      rw [hfree] at hs'
      cases hs'

lemma Inv.letIn (h : Inv m) (hs : m.senders s = .idle) (hopen : m.isOpen = true) (x : α) :
    Inv (m.letIn s x) := by
  refine ⟨fun s' => ?_, h.keys, h.small, fun s' => ?_, fun {s1 s2 e1 e2 q} => ?_, fun e he => ?_,
    fun _ => .inl hopen, fun hr => ?_⟩
  · have := h.order s'
    grind [List.range_succ]
  · have := h.senders s'
    cases hs' : m.senders s' <;> grind
  · have := @h.distinct s1 s2 e1 e2 q
    grind
  · have := h.pushed e he
    grind
  · have := (h.drained hr).1
    grind

lemma Inv.number (h : Inv m) (hs : m.senders s = .admitted e) (hsmall : m.nextSeq < 2 ^ 63) :
    Inv (m.number s e) := by
  have hnext : (m.number s e).nextSeq = m.nextSeq + 1 := Nat.mod_eq_of_lt (by omega)
  have hpending : ∀ s', (m.number s e).pending s' = m.pending s' := by grind
  refine ⟨fun s' => ?_, fun kv hkv => ?_, by omega, fun s' => ?_, fun {s1 s2 e1 e2 q} => ?_,
    fun e' he' => ?_, h.seen, h.drained⟩
  · exact hpending s' ▸ h.order s'
  · have := h.keys kv hkv
    omega
  · have := h.senders s'
    have := h.keys
    cases hs' : m.senders s' <;> grind
  · have := @h.distinct s1 s2 e1 e2 q
    have := h.senders s1
    have := h.senders s2
    grind
  · exact hpending _ ▸ h.pushed e' he'

lemma ofSender_map_snd (s : ι) (l : List (ℤ × Entry ι α)) :
    ofSender s (l.map Prod.snd) = (l.filter fun kv => kv.2.sender = s).map Prod.snd := by
  rw [ofSender, List.filter_map]
  rfl

lemma Inv.nth_eq (h : Inv m) (hs : m.pending s = [e.nth]) :
    e.nth + 1 = m.begun s := by
  have horder := h.order s
  rw [hs] at horder
  have hlast := congrArg List.getLast? horder
  rw [List.getLast?_concat] at hlast
  cases hb : m.begun s with
  | zero => simp [hb] at hlast
  | succ n =>
    rw [hb, List.range_succ, List.getLast?_concat, Option.some.injEq] at hlast
    rw [hlast]

lemma Inv.not_pushed (h : Inv m) (hs : m.pending s = [e.nth])
    (he : e.sender = s) : e ∉ m.pushed := fun hmem => by
  have hlt := h.pushed e hmem
  rw [he, hs, List.length_singleton, h.nth_eq hs] at hlt
  exact lt_irrefl _ hlt

/-- **The payload comes into the table**, after all that its sender has there. -/
lemma Inv.store (h : Inv m) {q : ℕ} (hs : m.senders s = .numbered e q) : Inv (m.store s e q) := by
  have hok := h.senders s
  rw [hs] at hok
  obtain ⟨hes, hq, hfresh, hlast⟩ := hok
  have hkey : keyOf q = q := keyOf_eq (hq.trans_le h.small)
  have hpend : m.pending s = [e.nth] := by simp [Mailbox.pending, hs, Sender.pending]
  have hnth := h.nth_eq hpend
  have hnot := h.not_pushed hpend hes
  have hstored : (m.store s e q).storage.entries =
      SortedMap.insertList (q : ℤ) e m.storage.entries := by rw [← hkey]; rfl
  have hmem : ∀ {kv}, kv ∈ (m.store s e q).storage.entries →
      kv = ((q : ℤ), e) ∨ kv ∈ m.storage.entries := fun hkv =>
    SortedMap.mem_of_mem_insertList (hstored ▸ hkv)
  refine ⟨fun s' => ?_, fun kv hkv => ?_, h.small, fun s' => ?_, fun {s1 s2 e1 e2 q'} => ?_,
    fun e' he' => ?_, fun hsaw => (h.seen hsaw).imp id fun hall kv hkv => ?_,
    fun hr => ⟨(h.drained hr).1, fun kv hkv => ?_⟩⟩
  · have horder := h.order s'
    rw [ofSender_map_snd] at horder
    rw [hstored, ofSender_map_snd]
    by_cases hss : s' = s
    · subst hss
      rw [SortedMap.filter_insertList_of_pos m.storage.sorted hfresh (by simp [hes])
        (fun kv hkv hp => hlast kv hkv (by simpa using hp))]
      grind
    · rw [SortedMap.filter_insertList_of_neg hfresh (by simpa [hes] using Ne.symm hss)]
      grind
  · rcases hmem hkv with rfl | hkv
    · exact Int.ofNat_lt.mpr hq
    · exact h.keys kv hkv
  · -- another sender has another number
    have := h.senders s'
    have hother : ∀ e' q', m.senders s' = .numbered e' q' → q = q' → s' = s := fun _ _ hs' hqq =>
      h.distinct hs' (hqq ▸ hs)
    cases hs' : m.senders s' <;> grind
  · have := @h.distinct s1 s2 e1 e2 q'
    grind
  · have := h.pushed e' he'
    grind
  · grind [hmem hkv]
  · have := (h.drained hr).2
    grind [hmem hkv]

lemma Inv.finish (h : Inv m) (hs : m.senders s = .inserted e) : Inv (m.finish s e) := by
  have hok := h.senders s
  rw [hs] at hok
  have hpending : ∀ s', (m.finish s e).pending s' = m.pending s' := by grind
  have hpushed : ∀ {e'}, e' ∈ (m.finish s e).pushed → e' ∈ m.pushed ∨ e' = e ∧ m.isOpen = true := by
    unfold Mailbox.finish
    grind
  refine ⟨fun s' => ?_, h.keys, h.small, fun s' => ?_, fun {s1 s2 e1 e2 q} => ?_, fun e' he' => ?_,
    fun hsaw => ?_, fun hr => ⟨(h.drained hr).1, fun kv hkv hmem => ?_⟩⟩
  · exact hpending s' ▸ h.order s'
  · have := h.senders s'
    cases hs' : m.senders s' <;> grind
  · have := @h.distinct s1 s2 e1 e2 q
    grind
  · -- the push that returns is in the table or popped, not on its way
    have := h.pushed e'
    have := hok.1
    have := hok.2
    grind [hpushed he']
  · have := h.seen hsaw
    grind
  · have := h.drained hr
    grind [hpushed hmem]

lemma Inv.close (h : Inv m) (ht : m.Timely .close) : Inv { m with isOpen := false } where
  order := h.order
  keys := h.keys
  small := h.small
  senders := h.senders
  distinct := h.distinct
  pushed := h.pushed
  seen hsaw := by
    refine .inr ?_
    cases hopen : m.isOpen with
    | true => exact ht hopen hsaw
    | false => exact (h.seen hsaw).resolve_left (by simp [hopen])
  drained hr := ⟨rfl, (h.drained hr).2⟩

/-- The loads of `open` in `pop_or_wait`. -/
lemma Inv.load (h : Inv m) {t : Bool} {r : Receiver ι α} (hsaw : t = false → m.sawEmpty = true)
    (hr : r ≠ .returned false none) : Inv (m.goto (if m.isOpen then r else .returned t none)) := by
  cases hopen : m.isOpen with
  | true => exact h.goto (fun _ => .inl hopen) fun heq => absurd heq hr
  | false =>
    refine h.goto (by simp [sawEmpty, Mailbox.goto]) fun ht => ⟨hopen, ?_⟩
    obtain rfl : t = false := by simpa using ht
    exact (h.seen (hsaw rfl)).resolve_left (by simp [hopen])

/-- **A step of `pop_or_wait`.** -/
lemma Inv.receive (h : Inv m) : Inv m.receive := by
  unfold Mailbox.receive
  split
  · next t hr =>
    have hpop : Inv m.pop.2 := h.pop (by simp [sawEmpty, hr]) (by simp [hr])
    split
    · next e m' hm =>
      rw [hm] at hpop
      exact hpop.goto (by simp [sawEmpty, Mailbox.goto]) nofun
    · next m' hm =>
      rw [hm] at hpop
      refine hpop.goto (fun _ => .inr fun kv hkv => ?_) nofun
      -- the table is empty
      unfold Mailbox.pop at hm
      split at hm
      · cases hm
      · next hnone =>
        cases hm
        rw [List.head?_eq_none_iff.mp hnone] at hkv
        cases hkv
  · next hr => exact h.load (fun ht => by simp [sawEmpty, hr, ht]) nofun
  · exact h.goto (by simp [sawEmpty, Mailbox.goto]) nofun
  · split
    · exact h.goto (by simp [sawEmpty, Mailbox.goto]) nofun
    · next hlen =>
      refine h.goto (fun _ => .inr fun kv hkv => ?_) nofun
      rw [List.eq_nil_of_length_eq_zero (Nat.eq_zero_of_not_pos hlen)] at hkv
      cases hkv
  · next hr => exact h.load (fun ht => by simp [sawEmpty, hr, ht]) nofun
  · exact h.goto (by simp [sawEmpty, Mailbox.goto]) nofun
  · exact h
  · exact h

/-- **One step keeps the invariant.** -/
theorem Inv.step (m : Mailbox ι α) (a : Act ι α) (h : Inv m) (ht : m.Timely a) :
    Inv (Mailbox.step a m) := by
  cases a with
  | push s x =>
    simp only [Mailbox.step]
    split
    · next hs =>
      split
      · next hopen => exact h.letIn hs hopen x
      · exact h
    · exact h
  | advance s =>
    simp only [Mailbox.step, Mailbox.advance]
    split
    · exact h
    · next hs => exact h.number hs (by simpa [Timely, hs] using ht)
    · next hs => exact h.store hs
    · next hs =>
      split
      · exact h
      · exact h.finish hs
  | tryPop =>
    simp only [Mailbox.step]
    split
    · have hidle : Inv (m.goto .idle) := h.goto (by simp [sawEmpty, Mailbox.goto]) nofun
      exact hidle.pop rfl nofun
    · exact h
  | popOrWait t =>
    simp only [Mailbox.step]
    split
    · exact h.goto (by simp [sawEmpty, Mailbox.goto]) nofun
    · exact h
  | receive => exact h.receive
  | expire =>
    simp only [Mailbox.step]
    split
    · exact h.goto (by simp [sawEmpty, Mailbox.goto]) nofun
    · exact h
  | close => exact h.close ht

end Mailbox

/-- **Delivery by the mailbox.** For any number of senders and one receiver, in every run whose
steps are all timely, the guarantees hold in every state. -/
theorem mailbox_delivers {ι α : Type} [DecidableEq ι] (as : List (Act ι α))
    (has : Actions.Allowed Mailbox.step Mailbox.Timely Mailbox.create as) :
    (Actions.run Mailbox.step as Mailbox.create).Delivers :=
  (Actions.run_invariant Mailbox.Inv.step Mailbox.inv_create has).delivers

/-- Two senders whose pushes overlap; the receiver takes both messages and sees the close. -/
def twoPushes : List (Act ℕ ℕ) :=
  [.popOrWait false, .push 0 7, .push 1 8, .advance 1, .advance 0, .advance 0, .receive, .advance 1,
    .advance 1, .advance 0, .popOrWait false, .receive, .close, .popOrWait false, .receive,
    .receive]

theorem mailbox_delivers_twoPushes :
    Actions.Allowed Mailbox.step Mailbox.Timely Mailbox.create twoPushes ∧
    (Actions.run Mailbox.step twoPushes Mailbox.create).receiver = .returned false none ∧
    (Actions.run Mailbox.step twoPushes Mailbox.create).Delivers :=
  have h : Actions.Allowed Mailbox.step Mailbox.Timely Mailbox.create twoPushes := by decide
  ⟨h, by decide, mailbox_delivers twoPushes h⟩

/-- **A receiver that misses a message.** It finds the table empty; a push returns `Ok` and the
mailbox is closed before it looks at the flag, and `pop_or_wait` returns `None` with the message in
the table. -/
theorem closed_before_drained :
    ¬ (Actions.run Mailbox.step [.popOrWait false, .receive, .push 0 7, .advance 0, .advance 0,
      .advance 0, .close, .receive] (Mailbox.create : Mailbox ℕ ℕ)).Delivers := by
  intro h
  have hdrained := (h.drained (by decide)).2
  revert hdrained
  decide

end CrabScheme.Table
