import Mathlib

/-!
# Readers over a buffer

A reader consumes a buffer from a position. It gives a value and the position after it, fails with
an error, or breaks down when it makes a demand that the machine it runs on cannot meet (an address
beyond the word size, an allocation beyond the address space). The machine is a parameter, so one
reader can be run on machines that refuse more or less.

Two relations tie a reader to the words of a format. `Reader.Reads` says that it accepts a word
whatever follows, and fails on every proper beginning of it. `Reader.Spells` is the converse: what
it accepts is the word of what it gives.

## Main results

* `Reader.Reads.bind`, `Reader.Reads.loop` — words are read one after the other.
-/

/-- What comes of reading: a value and the position after it, an error, or a demand the machine
could not meet. -/
inductive Outcome (δ ε α : Type)
  | ok (a : α) (pos : ℕ)
  | err (e : ε)
  | panic (d : δ)
deriving DecidableEq

/-- **A reader** of buffers over `β`, on a machine given by the demands it meets. -/
def Reader (β δ ε α : Type) := (δ → Bool) → List β → ℕ → Outcome δ ε α

namespace Reader

variable {β δ ε α γ σ : Type}

instance : Monad (Reader β δ ε) where
  pure a := fun _ _ pos => .ok a pos
  bind r f := fun M buf pos =>
    match r M buf pos with
    | .ok a pos' => f a M buf pos'
    | .err e => .err e
    | .panic d => .panic d

/-- Fails. -/
def fail (e : ε) : Reader β δ ε α := fun _ _ _ => .err e

/-- Makes a demand, which may depend on the position. -/
def request (ask : ℕ → δ) : Reader β δ ε Unit := fun M _ pos =>
  if M (ask pos) then .ok () pos else .panic (ask pos)

/-- The next symbol. -/
def item (e : ε) : Reader β δ ε β := fun _ buf pos =>
  match buf[pos]? with
  | some b => .ok b (pos + 1)
  | none => .err e

/-- The next `n` symbols. -/
def window (n : ℕ) (e : ε) : Reader β δ ε (List β) := fun _ buf pos =>
  if pos + n ≤ buf.length then .ok ((buf.drop pos).take n) (pos + n) else .err e

/-- The next `n` symbols, after the demand that their end makes. -/
def slice (ask : ℕ → δ) (n : ℕ) (e : ε) : Reader β δ ε (List β) := do
  request ask
  window n e

/-- Repeats a step on an accumulator. -/
def loop (step : σ → Reader β δ ε σ) : ℕ → σ → Reader β δ ε σ
  | 0, s => pure s
  | n + 1, s => do
    let s' ← step s
    loop step n s'

lemma bind_run (r : Reader β δ ε α) (f : α → Reader β δ ε γ) (M : δ → Bool) (buf : List β)
    (pos : ℕ) :
    (r >>= f) M buf pos =
      match r M buf pos with
      | .ok a pos' => f a M buf pos'
      | .err e => .err e
      | .panic d => .panic d := rfl

variable {r : Reader β δ ε α} {f : α → Reader β δ ε γ} {a : α} {w w' : List β} {fits : α → Prop}
  {word : α → List β}

lemma bind_ok {M : δ → Bool} {buf : List β} {pos pos' : ℕ} (h : r M buf pos = .ok a pos') :
    (r >>= f) M buf pos = f a M buf pos' := by
  rw [bind_run, h]

lemma bind_err {M : δ → Bool} {buf : List β} {pos : ℕ} {e : ε} (h : r M buf pos = .err e) :
    (r >>= f) M buf pos = .err e := by
  rw [bind_run, h]

/-! ## Words -/

/-- **A reader reads a word**, within a bound on positions: it gives `a` on the word whatever stands
before and after, and fails where the buffer ends inside the word. -/
structure Reads (M : δ → Bool) (limit : ℕ) (r : Reader β δ ε α) (w : List β) (a : α) : Prop where
  whole : ∀ pre post : List β, pre.length + w.length ≤ limit →
    r M (pre ++ (w ++ post)) pre.length = .ok a (pre.length + w.length)
  short : ∀ pre q : List β, pre.length + w.length ≤ limit → q <+: w → q ≠ w →
    ∃ e, r M (pre ++ q) pre.length = .err e

section Reads

variable {M : δ → Bool} {limit : ℕ}

lemma Reads.pure (a : α) : Reads M limit (pure a : Reader β δ ε α) [] a where
  whole := fun _ _ _ => rfl
  short := fun _ _ _ hq hne => absurd (List.prefix_nil.mp hq) hne

lemma prefix_append_cases {q : List β} (h : q <+: w ++ w') (hne : q ≠ w ++ w') :
    (q <+: w ∧ q ≠ w) ∨ ∃ q', q = w ++ q' ∧ q' <+: w' ∧ q' ≠ w' := by
  have hsecond : w <+: q → ∃ q', q = w ++ q' ∧ q' <+: w' ∧ q' ≠ w' := by
    rintro ⟨q', rfl⟩
    exact ⟨q', rfl, (List.prefix_append_right_inj w).mp h, fun heq => hne (by rw [heq])⟩
  rcases List.prefix_or_prefix_of_prefix h (List.prefix_append w w') with hq | hq
  · by_cases heq : q = w
    · exact .inr (hsecond (by rw [heq]))
    · exact .inl ⟨hq, heq⟩
  · exact .inr (hsecond hq)

/-- **Sequencing.** -/
lemma Reads.bind {c : γ} (hr : Reads M limit r w a) (hf : Reads M limit (f a) w' c) :
    Reads M limit (r >>= f) (w ++ w') c where
  whole := by
    intro pre post hlen
    rw [List.length_append] at hlen
    rw [List.append_assoc, bind_ok (hr.whole pre (w' ++ post) (by omega))]
    have h := hf.whole (pre ++ w) post (by rw [List.length_append]; omega)
    simpa [Nat.add_assoc] using h
  short := by
    intro pre q hlen hq hne
    rw [List.length_append] at hlen
    rcases prefix_append_cases hq hne with ⟨hw, hneq⟩ | ⟨q', rfl, hw', hneq⟩
    · obtain ⟨e, he⟩ := hr.short pre q (by omega) hw hneq
      exact ⟨e, bind_err he⟩
    · obtain ⟨e, he⟩ := hf.short (pre ++ w) q' (by rw [List.length_append]; omega) hw' hneq
      refine ⟨e, ?_⟩
      rw [bind_ok (hr.whole pre q' (by omega))]
      simpa using he

lemma Reads.map (f : α → γ) (hr : Reads M limit r w a) :
    Reads M limit (r >>= fun x => Pure.pure (f x)) w (f a) := by
  have h : Reads M limit (r >>= fun x => Pure.pure (f x)) (w ++ []) (f a) :=
    hr.bind (Reads.pure (f a))
  simpa using h

lemma Reads.request {ask : ℕ → δ} (h : ∀ pos, pos ≤ limit → M (ask pos)) :
    Reads M limit (Reader.request ask : Reader β δ ε Unit) [] () where
  whole := by
    intro pre post hlen
    simp [Reader.request, h pre.length (by simpa using hlen)]
  short := fun _ _ _ hq hne => absurd (List.prefix_nil.mp hq) hne

lemma Reads.item (e : ε) (b : β) : Reads M limit (Reader.item e : Reader β δ ε β) [b] b where
  whole := by
    simp [Reader.item]
  short := by
    intro pre q _ hq hne
    have hnil : q = [] := by
      cases q with
      | nil => rfl
      | cons c q =>
        obtain ⟨rfl, hrest⟩ := List.cons_prefix_cons.mp hq
        obtain rfl := List.prefix_nil.mp hrest
        exact absurd rfl hne
    exact ⟨e, by simp [Reader.item, hnil]⟩

lemma Reads.window {n : ℕ} (e : ε) (hn : w.length = n) :
    Reads M limit (Reader.window n e : Reader β δ ε (List β)) w w where
  whole := by
    simp [Reader.window, ← hn]
  short := by
    intro pre q _ hq hne
    have hlt : q.length < w.length :=
      lt_of_le_of_ne hq.length_le fun heq => hne (hq.eq_of_length heq)
    exact ⟨e, by simp [Reader.window, ← hn, hlt]⟩

lemma Reads.slice {ask : ℕ → δ} {n : ℕ} (e : ε) (hn : w.length = n)
    (h : ∀ pos, pos + n ≤ limit → M (ask pos)) :
    Reads M limit (Reader.slice ask n e : Reader β δ ε (List β)) w w := by
  have hwindow : Reads M limit (Reader.window n e : Reader β δ ε (List β)) w w :=
    Reads.window e hn
  have hrun : ∀ (buf : List β) (pos : ℕ), pos + w.length ≤ limit →
      (Reader.slice ask n e : Reader β δ ε (List β)) M buf pos = Reader.window n e M buf pos := by
    intro buf pos hpos
    exact bind_ok (if_pos (h pos (hn ▸ hpos)))
  exact
    { whole := fun pre post hlen => by rw [hrun _ _ hlen]; exact hwindow.whole pre post hlen
      short := fun pre q hlen hq hne => by
        rw [hrun _ _ hlen]; exact hwindow.short pre q hlen hq hne }

/-- **Repetition**: where each step reads the word of its item, a loop reads the words of the items
one after the other. -/
lemma Reads.loop {ι : Type} {step : σ → Reader β δ ε σ} (word : ι → List β) (add : σ → ι → σ) :
    ∀ (items : List ι) (s : σ),
      (∀ i ∈ items, ∀ s, Reads M limit (step s) (word i) (add s i)) →
      Reads M limit (Reader.loop step items.length s) (items.map word).flatten (items.foldl add s)
  | [], s, _ => Reads.pure s
  | i :: items, s, h => by
    have hi := h i (by simp) s
    have hrest := Reads.loop word add items (add s i) fun j hj => h j (by simp [hj])
    simpa [Reader.loop] using hi.bind hrest

end Reads

/-! ## Spelling -/

/-- What holds of an outcome: `Q` of a value and the position after it, `P` of a demand that was not
met, nothing of an error. -/
def Ends (o : Outcome δ ε α) (Q : α → ℕ → Prop) (P : δ → Prop) : Prop :=
  match o with
  | .ok a pos => Q a pos
  | .err _ => True
  | .panic d => P d

/-- **A reader spells what it gives**: from a position inside the buffer, where it succeeds the
buffer goes on with the word of the value and the reader stops after it; where it breaks down, the
demand is one that `P` allows after what was read before. -/
def Spells (M : δ → Bool) (buf : List β) (r : Reader β δ ε α) (fits : α → Prop)
    (word : α → List β) (P : List β → δ → Prop) : Prop :=
  ∀ w, w <+: buf → Ends (r M buf w.length)
    (fun a pos => fits a ∧ w ++ word a <+: buf ∧ pos = (w ++ word a).length) (P w)

section Spells

variable {M : δ → Bool} {buf : List β} {Q : γ → ℕ → Prop} {P' : δ → Prop}

/-- **Sequencing**: the rest is considered after the word of the first value. What was read is a
variable with an equation, so that long sequences do not build up long positions. -/
lemma Spells.bind {P : List β → δ → Prop} (hr : Spells M buf r fits word P) (hw : w <+: buf)
    (hP : ∀ d, P w d → P' d)
    (hf : ∀ a, fits a → ∀ w', w' <+: buf → w' = w ++ word a → Ends (f a M buf w'.length) Q P') :
    Ends ((r >>= f) M buf w.length) Q P' := by
  have h := hr w hw
  rw [bind_run]
  cases hrun : r M buf w.length with
  | ok a pos =>
    rw [hrun] at h
    obtain ⟨hfits, hspelt, rfl⟩ := h
    exact hf a hfits _ hspelt rfl
  | err e => exact trivial
  | panic d =>
    rw [hrun] at h
    exact hP d h

lemma Spells.done (hw : w' <+: buf) (hfits : fits a) (hword : w' = w ++ word a) :
    Ends ((pure a : Reader β δ ε α) M buf w'.length)
      (fun a pos => fits a ∧ w ++ word a <+: buf ∧ pos = (w ++ word a).length) P' := by
  subst hword
  exact ⟨hfits, hw, rfl⟩

lemma Spells.map {P : List β → δ → Prop} (hr : Spells M buf r fits word P) {f : α → γ}
    {fits' : γ → Prop} {word' : γ → List β} (hw : w' <+: buf) (hP : ∀ d, P w' d → P' d)
    (hfits : ∀ a, fits a → fits' (f a)) (hword : ∀ a, w' ++ word a = w ++ word' (f a)) :
    Ends ((r >>= fun a => pure (f a)) M buf w'.length)
      (fun c pos => fits' c ∧ w ++ word' c <+: buf ∧ pos = (w ++ word' c).length) P' :=
  hr.bind hw hP fun a ha _ hspelt heq => Spells.done hspelt (hfits a ha) (heq ▸ hword a)

lemma Spells.item (e : ε) :
    Spells M buf (Reader.item e) (fun _ => True) (fun b => [b]) fun _ _ => False := by
  rintro w ⟨rest, rfl⟩
  unfold Reader.item
  cases rest with
  | nil => simp [Ends]
  | cons b rest => simp [Ends]

lemma Spells.request (ask : ℕ → δ) :
    Spells M buf (Reader.request ask : Reader β δ ε Unit) (fun _ => True) (fun _ => [])
      fun w d => d = ask w.length ∧ M d = false := by
  intro w hw
  unfold Reader.request
  cases hM : M (ask w.length) <;> simp [Ends, hM, hw]

lemma Spells.reserve (d : δ) :
    Spells M buf (Reader.request fun _ => d : Reader β δ ε Unit) (fun _ => M d = true)
      (fun _ => []) fun _ d' => d' = d ∧ M d' = false := by
  intro w hw
  unfold Reader.request
  cases hM : M d <;> simp [Ends, hM, hw]

lemma Spells.window (n : ℕ) (e : ε) :
    Spells M buf (Reader.window n e) (fun s => s.length = n) id fun _ _ => False := by
  rintro w ⟨rest, rfl⟩
  unfold Reader.window
  split_ifs with hfit
  · rw [List.length_append] at hfit
    have htake : (rest.take n).length = n := by rw [List.length_take]; omega
    simp only [List.drop_left, id, List.length_append]
    refine ⟨htake, (List.prefix_append_right_inj w).mpr ?_, by omega⟩
    exact List.take_prefix n rest
  · exact trivial

lemma Spells.slice (ask : ℕ → δ) (n : ℕ) (e : ε) :
    Spells M buf (Reader.slice ask n e) (fun s => s.length = n) id
      fun w d => d = ask w.length ∧ M d = false := by
  intro w hw
  refine (Spells.request ask).bind hw (fun d h => h) fun _ _ w' hw' heq => ?_
  obtain rfl : w' = w := by simpa using heq
  have h := Spells.window (M := M) n e w' hw'
  generalize Reader.window n e M buf w'.length = o at h
  cases o with
  | ok s pos => exact h
  | err e => exact trivial
  | panic d => exact h.elim

/-- **Repetition** on a list that grows by what is read: the words of the items follow each other,
and a refusal comes after the words of the items before it. -/
lemma Spells.loop {P : List β → δ → Prop} (hr : Spells M buf r fits word P) :
    ∀ (n : ℕ) (v : List α) (w : List β), w <+: buf →
      Ends (Reader.loop (fun v => do let a ← r; pure (v ++ [a])) n v M buf w.length)
        (fun v' pos => ∃ l, v' = v ++ l ∧ l.length = n ∧ (∀ a ∈ l, fits a) ∧
          w ++ (l.map word).flatten <+: buf ∧ pos = (w ++ (l.map word).flatten).length)
        (fun d => ∃ l : List α, l.length < n ∧ (∀ a ∈ l, fits a) ∧ w ++ (l.map word).flatten <+: buf ∧
          P (w ++ (l.map word).flatten) d)
  | 0, v, w, hw => ⟨[], by simp, rfl, by simp, by simpa using hw, by simp⟩
  | n + 1, v, w, hw => by
    have hstep : Reader.loop (fun v => do let a ← r; pure (v ++ [a])) (n + 1) v =
        r >>= fun a => Reader.loop (fun v => do let a ← r; pure (v ++ [a])) n (v ++ [a]) := by
      funext M buf pos
      simp only [Reader.loop, bind_run]
      cases r M buf pos <;> rfl
    rw [hstep]
    refine hr.bind hw (fun d hd => ⟨[], by simp, by simp, by simpa using hw, by simpa using hd⟩)
      fun a ha w' hspelt heq => ?_
    subst heq
    have hrest := Spells.loop hr n (v ++ [a]) (w ++ word a) hspelt
    generalize Reader.loop _ n (v ++ [a]) M buf (w ++ word a).length = o at hrest
    cases o with
    | ok v' pos =>
      obtain ⟨l, rfl, hlen, hl, hw', rfl⟩ := hrest
      exact ⟨a :: l, by simp, by simp [hlen], by simpa using ⟨ha, hl⟩, by simpa using hw',
        by simp⟩
    | err e => exact trivial
    | panic d =>
      obtain ⟨l, hlen, hl, hw', hd⟩ := hrest
      exact ⟨a :: l, by simpa using hlen, by simpa using ⟨ha, hl⟩, by simpa using hw',
        by simpa using hd⟩

end Spells

/-! ## Quiet readers -/

/-- **A reader that does not break down**, and stays inside the buffer. -/
def Quiet (M : δ → Bool) (buf : List β) (r : Reader β δ ε α) : Prop :=
  ∀ w, w <+: buf → Ends (r M buf w.length) (fun _ pos => ∃ w', w' <+: buf ∧ pos = w'.length)
    fun _ => False

section Quiet

variable {M : δ → Bool} {buf : List β}

lemma Quiet.pure (a : α) : Quiet M buf (pure a : Reader β δ ε α) := fun w hw => ⟨w, hw, rfl⟩

lemma Quiet.bind (hr : Quiet M buf r) (hf : ∀ a, Quiet M buf (f a)) : Quiet M buf (r >>= f) := by
  intro w hw
  have h := hr w hw
  rw [bind_run]
  cases hrun : r M buf w.length with
  | ok a pos =>
    rw [hrun] at h
    obtain ⟨w', hw', rfl⟩ := h
    exact hf a w' hw'
  | err e => exact trivial
  | panic d =>
    rw [hrun] at h
    exact h.elim

lemma Quiet.loop {step : σ → Reader β δ ε σ} (h : ∀ s, Quiet M buf (step s)) :
    ∀ (n : ℕ) (s : σ), Quiet M buf (Reader.loop step n s)
  | 0, s => Quiet.pure s
  | n + 1, s => (h s).bind fun s' => Quiet.loop h n s'

lemma Quiet.ends (hr : Quiet M buf r) (hw : w <+: buf) {P : δ → Prop}
    : Ends (r M buf w.length) (fun _ _ => True) P := by
  have h := hr w hw
  cases hrun : r M buf w.length with
  | ok a pos => exact trivial
  | err e => exact trivial
  | panic d =>
    rw [hrun] at h
    exact h.elim

lemma Spells.quiet {P : List β → δ → Prop} (hr : Spells M buf r fits word P) (hP : ∀ w d, ¬ P w d) :
    Quiet M buf r := by
  intro w hw
  have h := hr w hw
  cases hrun : r M buf w.length with
  | ok a pos =>
    rw [hrun] at h
    exact ⟨_, h.2.1, h.2.2⟩
  | err e => exact trivial
  | panic d =>
    rw [hrun] at h
    exact (hP w d h).elim

end Quiet

end Reader
