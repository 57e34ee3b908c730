import CrabScheme.Data.Same

/-!
# `equal?` on circular structure

A value unfolds to a tree, infinite if the value is circular: what is found along every path of
positions. Whenever `equal?` returns, it compares these trees; the exception is a NaN, which is
`eqv?` to nothing, so that one tree with a NaN in it may be told apart from itself.

`equal?` remembers pairs and not vectors. It returns unless, while it compares two vectors, it
comes to compare the same two vectors again with nothing but vectors in between.

## Main results

* `equal_unfolds` — an answer of `equal?` is about the unfolded trees.
* `equal_returns_iff` — when `equal?` returns.
-/

namespace CrabScheme.Data

/-! ### Unfolded trees -/

/-- What a node of an unfolded tree holds. A number is given by its value; a NaN stands for
itself. -/
inductive Label
  | exact (q : ℚ)
  | inexact (f : F64)
  | string (s : List Char)
  | byteVector (bytes : List UInt8)
  | pair
  | vector (length : ℕ)
  | atom (v : Value)
deriving DecidableEq

section Unfold

variable (h : Store)

/-- The label of a value. -/
def label : Value → Label
  | .number (.fixnum n) => .exact n.val
  | .number (.big n) => .exact n
  | .number (.rat q) => .exact q
  | .number (.flonum f) => .inexact (if f = F64.negZero then ⟨0⟩ else f)
  | .string x =>
    match h[x]? with
    | some (.string s) => .string s
    | _ => .atom (.string x)
  | .byteVector x =>
    match h[x]? with
    | some (.byteVector s) => .byteVector s
    | _ => .atom (.byteVector x)
  | .pair x =>
    match h[x]? with
    | some (.pair _ _) => .pair
    | _ => .atom (.pair x)
  | .vector x =>
    match h[x]? with
    | some (.vector xs) => .vector xs.length
    | _ => .atom (.vector x)
  | v => .atom v

/-- The parts of a value. -/
def parts : Value → List Value
  | .pair x =>
    match h[x]? with
    | some (.pair a d) => [a, d]
    | _ => []
  | .vector x =>
    match h[x]? with
    | some (.vector xs) => xs
    | _ => []
  | _ => []

/-- **The tree a value unfolds to**: the label found along a path of positions. -/
def unfolded (v : Value) : List ℕ → Option Label
  | [] => some (label h v)
  | i :: path =>
    match (parts h v)[i]? with
    | some part => unfolded part path
    | none => none

/-- No number of a tree is a NaN. -/
def NanFree (t : List ℕ → Option Label) : Prop :=
  ∀ path f, t path = some (.inexact f) → f.isNan = false

variable {h} {fp : FlonumOps} {a b : Value}

/-- What a label says of a value. -/
def Labelled (h : Store) (v : Value) : Label → Prop
  | .exact q => ∃ n, v = .number n ∧ n.toRational = some q
  | .inexact f => ∃ g, v = .number (.flonum g) ∧ f = if g = F64.negZero then ⟨0⟩ else g
  | .string s => ∃ x, v = .string x ∧ h[x]? = some (.string s)
  | .byteVector s => ∃ x, v = .byteVector x ∧ h[x]? = some (.byteVector s)
  | .pair => ∃ x a d, v = .pair x ∧ h[x]? = some (.pair a d)
  | .vector n => ∃ x xs, v = .vector x ∧ h[x]? = some (.vector xs) ∧ xs.length = n
  | .atom u => v = u ∧ v.asNumber = none

lemma labelled_label (v : Value) : Labelled h v (label h v) := by
  unfold label
  split
  · exact ⟨_, rfl, rfl⟩
  · exact ⟨_, rfl, rfl⟩
  · exact ⟨_, rfl, rfl⟩
  · exact ⟨_, rfl, rfl⟩
  · split
    · exact ⟨_, rfl, ‹_›⟩
    · exact ⟨rfl, rfl⟩
  · split
    · exact ⟨_, rfl, ‹_›⟩
    · exact ⟨rfl, rfl⟩
  · split
    · exact ⟨_, _, _, rfl, ‹_›⟩
    · exact ⟨rfl, rfl⟩
  · split
    · exact ⟨_, _, rfl, ‹_›, rfl⟩
    · exact ⟨rfl, rfl⟩
  · refine ⟨rfl, ?_⟩
    cases v with
    | number n => cases n <;> simp_all
    | _ => rfl

lemma label_number_of_eqv (hfp : fp.eq = F64.ieeeEq) {x y : Number}
    (heqv : (Value.number x).eqv fp (.number y) = true) :
    label h (.number x) = label h (.number y) := by
  rw [Value.eqv_number, hfp] at heqv
  rcases heqv with ⟨q, hx, hy⟩ | ⟨f, g, rfl, rfl, hfg⟩
  · have hexact : ∀ n : Number, n.toRational = some q → label h (.number n) = .exact q := by
      intro n hn
      cases n <;> simp_all [label, Number.toRational]
    rw [hexact x hx, hexact y hy]
  · rw [F64.ieeeEq_iff] at hfg
    obtain ⟨-, -, rfl | ⟨hf, hg⟩⟩ := hfg
    · rfl
    · rcases hf with rfl | rfl <;> rcases hg with rfl | rfl <;> rfl

/-- What cannot be told apart has the same label, and parts that cannot be told apart. -/
lemma Same.label_parts (hfp : fp.eq = F64.ieeeEq) (hab : Same fp h a b) :
    a = b ∨ label h a = label h b ∧ List.Forall₂ (Same fp h) (parts h a) (parts h b) := by
  rcases hab.step with heqv | ⟨x, y, s, rfl, rfl, hx, hy⟩ |
    ⟨x, y, xa, xd, ya, yd, rfl, rfl, hx, hy, hcar, hcdr⟩ |
    ⟨x, y, xs, ys, rfl, rfl, hx, hy, hitems⟩ | ⟨x, y, s, rfl, rfl, hx, hy⟩
  · rcases Value.eq_of_eqv fp heqv with rfl | ⟨x, y, rfl, rfl⟩
    · exact .inl rfl
    · exact .inr ⟨label_number_of_eqv hfp heqv, .nil⟩
  · simp [label, parts, hx, hy]
  · simp [label, parts, hx, hy, hcar, hcdr]
  · simp [label, parts, hx, hy, hitems, hitems.length_eq]
  · simp [label, parts, hx, hy]

/-- **What cannot be told apart unfolds to one tree.** -/
lemma Same.unfolded_eq (hfp : fp.eq = F64.ieeeEq) (hab : Same fp h a b) :
    unfolded h a = unfolded h b := by
  funext path
  induction path generalizing a b with
  | nil =>
    rcases hab.label_parts hfp with rfl | ⟨hlabel, -⟩
    · rfl
    · simp [unfolded, hlabel]
  | cons i path ih =>
    rcases hab.label_parts hfp with rfl | ⟨-, hparts⟩
    · rfl
    · simp only [unfolded]
      obtain ⟨hlen, hget⟩ := List.forall₂_iff_get.1 hparts
      by_cases hi : i < (parts h a).length
      · have hi' : i < (parts h b).length := hlen ▸ hi
        rw [List.getElem?_eq_getElem hi, List.getElem?_eq_getElem hi']
        exact ih (hget i hi hi')
      · rw [List.getElem?_eq_none (by omega), List.getElem?_eq_none (by omega)]

/-- One level of the comparison, from the labels and the parts. -/
lemma sameStep_of_label (hfp : fp.eq = F64.ieeeEq) {R : Value → Value → Prop}
    (hlabel : label h a = label h b)
    (hnan : ∀ f, label h a = .inexact f → f.isNan = false)
    (hparts : List.Forall₂ R (parts h a) (parts h b)) : SameStep fp h R a b := by
  have ha := labelled_label (h := h) a
  have hb := labelled_label (h := h) b
  rw [← hlabel] at hb
  cases hl : label h a with
  | exact q =>
    rw [hl] at ha hb
    obtain ⟨x, rfl, hx⟩ := ha
    obtain ⟨y, rfl, hy⟩ := hb
    exact .inl (Value.eqv_number.2 (.inl ⟨q, hx, hy⟩))
  | inexact f =>
    have hf := hnan f hl
    rw [hl] at ha hb
    obtain ⟨x, rfl, hx⟩ := ha
    obtain ⟨y, rfl, hy⟩ := hb
    refine .inl (Value.eqv_number.2 (.inr ⟨x, y, rfl, rfl, ?_⟩))
    rw [hfp, F64.ieeeEq_iff]
    have hzero : F64.isNan F64.negZero = false := by decide
    by_cases hx0 : x = F64.negZero <;> by_cases hy0 : y = F64.negZero <;>
      simp_all
  | string s =>
    rw [hl] at ha hb
    obtain ⟨x, rfl, hx⟩ := ha
    obtain ⟨y, rfl, hy⟩ := hb
    exact .inr (.inl ⟨x, y, s, rfl, rfl, hx, hy⟩)
  | byteVector s =>
    rw [hl] at ha hb
    obtain ⟨x, rfl, hx⟩ := ha
    obtain ⟨y, rfl, hy⟩ := hb
    exact .inr (.inr (.inr (.inr ⟨x, y, s, rfl, rfl, hx, hy⟩)))
  | pair =>
    rw [hl] at ha hb
    obtain ⟨x, xa, xd, rfl, hx⟩ := ha
    obtain ⟨y, ya, yd, rfl, hy⟩ := hb
    simp only [parts, hx, hy, List.forall₂_cons] at hparts
    exact .inr (.inr (.inl ⟨x, y, xa, xd, ya, yd, rfl, rfl, hx, hy, hparts.1, hparts.2.1⟩))
  | vector n =>
    rw [hl] at ha hb
    obtain ⟨x, xs, rfl, hx, -⟩ := ha
    obtain ⟨y, ys, rfl, hy, -⟩ := hb
    simp only [parts, hx, hy] at hparts
    exact .inr (.inr (.inr (.inl ⟨x, y, xs, ys, rfl, rfl, hx, hy, hparts⟩)))
  | atom u =>
    rw [hl] at ha hb
    obtain ⟨rfl, hnum⟩ := ha
    obtain ⟨rfl, -⟩ := hb
    exact .inl (Value.eqv_iff.2 (.inl ⟨rfl, hnum⟩))

lemma parts_length_eq (hlabel : label h a = label h b) :
    (parts h a).length = (parts h b).length := by
  have hlen : ∀ v, (parts h v).length =
      match label h v with
      | .pair => 2
      | .vector n => n
      | _ => 0 := by
    intro v
    cases v with
    | number n => cases n <;> rfl
    | string x | byteVector x | pair x | vector x =>
      simp only [label, parts]
      rcases h[x]? with _ | _ | _ | _ | _ | _ <;> rfl
    | _ => rfl
  rw [hlen a, hlen b, hlabel]

/-- **What unfolds to one tree without a NaN cannot be told apart.** -/
lemma same_of_unfolded_eq (hfp : fp.eq = F64.ieeeEq) (hab : unfolded h a = unfolded h b)
    (hnan : NanFree (unfolded h a)) : Same fp h a b := by
  intro d
  induction d generalizing a b with
  | zero => trivial
  | succ d ih =>
    have hlabel : label h a = label h b := by
      simpa [unfolded] using congrFun hab []
    have hlen := parts_length_eq hlabel
    refine sameStep_of_label hfp hlabel (fun f hf => hnan [] f (congrArg some hf)) ?_
    refine List.forall₂_iff_get.2 ⟨hlen, fun i hi hj => ?_⟩
    have hsub : ∀ v (hv : i < (parts h v).length) path,
        unfolded h ((parts h v).get ⟨i, hv⟩) path = unfolded h v (i :: path) := by
      intro v hv path
      simp [unfolded, List.getElem?_eq_getElem hv]
    refine ih (funext fun path => ?_) fun path f hf => hnan (i :: path) f ?_
    · rw [hsub a hi, hsub b hj, hab]
    · rwa [← hsub a hi]

/-- **An answer of `equal?` is about the unfolded trees**: it is `true` only if the two values
unfold to one tree, and whenever they do and the tree has no NaN. -/
theorem equal_unfolds (hfp : fp.eq = F64.ieeeEq) {n : ℕ} {r : Bool} {visited : Visited}
    (heq : equalRec fp h n a b [] 64 = some (r, visited)) :
    (r = true → unfolded h a = unfolded h b) ∧
      (unfolded h a = unfolded h b → NanFree (unfolded h a) → r = true) := by
  have hsame := equalRec_decides heq
  constructor
  · intro hr
    exact (hsame.1 hr).unfolded_eq hfp
  · intro hab hnan
    exact hsame.2 (same_of_unfolded_eq hfp hab hnan)

/-- A NaN. -/
def nan : Value := .number (.flonum ⟨0x7FF8000000000000#64⟩)

/-- Two lists of one NaN each. -/
def nanLists : Store := [.pair nan .null, .pair nan .null]

/-- Two lists of one NaN unfold to one tree, and they are not `equal?`. -/
theorem nanLists_not_equal :
    unfolded nanLists (.pair 0) = unfolded nanLists (.pair 1) ∧
      equalRec { FlonumOps.coarse with eq := F64.ieeeEq } nanLists 3 (.pair 0) (.pair 1) [] 64 =
        some (false, []) := by
  refine ⟨funext fun path => ?_, by decide⟩
  cases path <;> rfl

/-- Two circular lists of one character. -/
def rings : Store := [.pair (.character 'a') (.pair 0), .pair (.character 'a') (.pair 1)]

theorem equal_unfolds_rings :
    equalRec { FlonumOps.coarse with eq := F64.ieeeEq } rings 67 (.pair 0) (.pair 1) [] 64 =
        some (true, [(0, 1)]) ∧
      unfolded rings (.pair 0) = unfolded rings (.pair 1) := by
  have heq : equalRec { FlonumOps.coarse with eq := F64.ieeeEq } rings 67 (.pair 0) (.pair 1)
      [] 64 = some (true, [(0, 1)]) := by decide
  exact ⟨heq, (equal_unfolds rfl heq).1 rfl⟩

end Unfold

/-! ### Comparisons and their parts -/

section Returns

variable (fp : FlonumOps) (h : Store)

/-- The three kinds of comparisons: those that are answered at once, and those of the parts of
two pairs or of two vectors. -/
inductive Shape (a b : Value) : Prop
  | flat (r : Bool) : (∀ n visited fuel,
      equalRec fp h (n + 1) a b visited fuel = some (r, visited)) → Shape a b
  | pairs {x y : ℕ} {xa xd ya yd : Value} : a = .pair x → b = .pair y → a.eqv fp b = false →
      h[x]? = some (.pair xa xd) → h[y]? = some (.pair ya yd) → Shape a b
  | vectors {x y : ℕ} {xs ys : List Value} : a = .vector x → b = .vector y →
      a.eqv fp b = false → h[x]? = some (.vector xs) → h[y]? = some (.vector ys) →
      xs.length = ys.length → Shape a b

lemma shape (a b : Value) : Shape fp h a b := by
  cases heqv : a.eqv fp b with
  | true => exact .flat true fun n V k => by simp [equalRec, heqv]
  | false =>
    by_cases hp : ∃ x y xa xd ya yd, a = .pair x ∧ b = .pair y ∧ h[x]? = some (.pair xa xd) ∧
        h[y]? = some (.pair ya yd)
    · obtain ⟨x, y, xa, xd, ya, yd, ha, hb, hx, hy⟩ := hp
      exact .pairs ha hb heqv hx hy
    by_cases hv : ∃ x y xs ys, a = .vector x ∧ b = .vector y ∧ h[x]? = some (.vector xs) ∧
        h[y]? = some (.vector ys) ∧ xs.length = ys.length
    · obtain ⟨x, y, xs, ys, ha, hb, hx, hy, hlen⟩ := hv
      exact .vectors ha hb heqv hx hy hlen
    have hflat : ∀ n V k, equalRec fp h (n + 1) a b V k =
        some (((equalRec fp h 1 a b [] 1).map Prod.fst).getD false, V) := by
      simp only [equalRec, heqv, Bool.false_eq_true, if_false]
      split
      · split <;> simp_all
      · split
        · rename_i hx hy
          exact absurd ⟨_, _, _, _, _, _, rfl, rfl, hx, hy⟩ hp
        · simp_all
      · split
        · rename_i hx hy
          split
          · simp_all
          · rename_i hlen
            exact absurd ⟨_, _, _, _, rfl, rfl, hx, hy, not_not.1 hlen⟩ hv
        · simp_all
      · split <;> simp_all
      · simp_all
    exact .flat _ hflat

variable {fp h} {n m k : ℕ} {a b : Value} {V V' V₁ : Visited} {r : Bool × Visited}

lemma equalRec_pairs {x y : ℕ} {xa xd ya yd : Value}
    (heqv : (Value.pair x).eqv fp (.pair y) = false) (hx : h[x]? = some (.pair xa xd))
    (hy : h[y]? = some (.pair ya yd)) :
    equalRec fp h (n + 1) (.pair x) (.pair y) V k =
      if k = 0 ∧ (x, y) ∈ V then some (true, V)
      else
        match equalRec fp h n xa ya (if k = 0 then (x, y) :: V else V) (k - 1) with
        | some (true, V₁) => equalRec fp h n xd yd V₁ (k - 1)
        | r => r := by
  simp only [equalRec, heqv, hx, hy]
  rfl

variable (fp h) in
/-- A comparison of all items under a bound on the depth. -/
def equalAll (n k : ℕ) (ps : List (Value × Value)) (V : Visited) : Option (Bool × Visited) :=
  allEqual (fun a b V => equalRec fp h n a b V k) ps V

lemma equalRec_vectors {x y : ℕ} {xs ys : List Value}
    (heqv : (Value.vector x).eqv fp (.vector y) = false) (hx : h[x]? = some (.vector xs))
    (hy : h[y]? = some (.vector ys)) (hlen : xs.length = ys.length) :
    equalRec fp h (n + 1) (.vector x) (.vector y) V k =
      equalAll fp h n (k - 1) (xs.zip ys) V := by
  simp [equalRec, equalAll, heqv, hx, hy, hlen]

variable {ps : List (Value × Value)}

lemma allEqual_mono {f g : Value → Value → Visited → Option (Bool × Visited)}
    (hfg : ∀ a b V r, f a b V = some r → g a b V = some r) (heq : allEqual f ps V = some r)
    : allEqual g ps V = some r := by
  induction ps generalizing V with
  | nil => exact heq
  | cons p ps ih =>
    rw [allEqual] at heq ⊢
    cases hf : f p.1 p.2 V with
    | none => simp [hf] at heq
    | some q =>
      rw [hfg _ _ _ _ hf]
      rw [hf] at heq
      rcases q with ⟨_ | _, V₁⟩
      · exact heq
      · exact ih heq

/-- A deeper bound on the recursion does not change an answer. -/
lemma equalRec_mono (heq : equalRec fp h n a b V k = some r) (hnm : n ≤ m) :
    equalRec fp h m a b V k = some r := by
  induction n generalizing a b V k r m with
  | zero => simp [equalRec] at heq
  | succ n ih =>
    obtain ⟨m, rfl⟩ : ∃ m', m = m' + 1 := ⟨m - 1, by omega⟩
    have hmono : ∀ a b V k r, equalRec fp h n a b V k = some r →
        equalRec fp h m a b V k = some r := fun a b V k r hr => ih hr (by omega)
    cases shape fp h a b with
    | flat r0 hflat => rw [hflat] at heq ⊢; exact heq
    | vectors ha hb heqv hx hy hlen =>
      subst ha hb
      rw [equalRec_vectors heqv hx hy hlen] at heq ⊢
      exact allEqual_mono (fun a b V r hr => hmono a b V _ r hr) heq
    | @pairs x y xa xd ya yd ha hb heqv hx hy =>
      subst ha hb
      rw [equalRec_pairs heqv hx hy] at heq ⊢
      split at heq
      · rw [if_pos ‹_›]
        exact heq
      · rw [if_neg ‹_›]
        cases hcar : equalRec fp h n xa ya (if k = 0 then (x, y) :: V else V) (k - 1) with
        | none => simp [hcar] at heq
        | some q =>
          rw [hmono _ _ _ _ _ hcar]
          rw [hcar] at heq
          rcases q with ⟨_ | _, V₁⟩
          · exact heq
          · exact hmono _ _ _ _ _ heq

/-- Under another bound the answer is the same, or there is none. -/
lemma agree_of_mono {β : Type} {f : ℕ → Option β} {r : β}
    (hf : ∀ {n m r}, f n = some r → n ≤ m → f m = some r) (hn : f n = some r) (m : ℕ) :
    f m = none ∨ f m = some r := by
  cases hm : f m with
  | none => exact .inl rfl
  | some q => exact .inr ((hf hm (Nat.le_max_right n m)).symm.trans (hf hn (Nat.le_max_left n m)))

lemma equalRec_agree (heq : equalRec fp h n a b V k = some r) (m : ℕ) :
    equalRec fp h m a b V k = none ∨ equalRec fp h m a b V k = some r :=
  agree_of_mono (f := fun n => equalRec fp h n a b V k) equalRec_mono heq m

lemma equalAll_mono (heq : equalAll fp h n k ps V = some r) (hnm : n ≤ m)
    : equalAll fp h m k ps V = some r :=
  allEqual_mono (fun _ _ _ _ hr => equalRec_mono hr hnm) heq

lemma equalAll_append (ps qs : List (Value × Value)) (V : Visited) :
    equalAll fp h n k (ps ++ qs) V =
      match equalAll fp h n k ps V with
      | some (true, V₁) => equalAll fp h n k qs V₁
      | r => r := by
  induction ps generalizing V with
  | nil => rfl
  | cons p ps ih =>
    rw [List.cons_append, equalAll, equalAll, allEqual, allEqual]
    rcases equalRec fp h n p.1 p.2 V k with _ | ⟨_ | _, V₁⟩
    · rfl
    · rfl
    · exact ih V₁

lemma equalAll_cons_none {p : Value × Value} (hp : equalRec fp h n p.1 p.2 V k = none)
    : equalAll fp h n k (p :: ps) V = none := by
  simp [equalAll, allEqual, hp]

/-! ### Nested comparisons -/

variable (fp h)

/-- A call of `equal_rec`. -/
structure Comparison where
  a : Value
  b : Value
  visited : Visited
  fuel : ℕ

/-- What a comparison answers. -/
def Comparison.run (c : Comparison) (n : ℕ) : Option (Bool × Visited) :=
  equalRec fp h n c.a c.b c.visited c.fuel

/-- A comparison of two vectors comes to compare two items, after the items before them. -/
inductive OpensItem : Comparison → Comparison → Prop
  | mk {x y n k : ℕ} {xs ys : List Value} {before after : List (Value × Value)} {c d : Value}
      {V V₁ : Visited} : (Value.vector x).eqv fp (.vector y) = false →
      h[x]? = some (.vector xs) → h[y]? = some (.vector ys) → xs.length = ys.length →
      xs.zip ys = before ++ (c, d) :: after →
      equalAll fp h n (k - 1) before V = some (true, V₁) →
      OpensItem ⟨.vector x, .vector y, V, k⟩ ⟨c, d, V₁, k - 1⟩

/-- **A comparison makes another one.** -/
inductive Opens : Comparison → Comparison → Prop
  | car {x y k : ℕ} {xa xd ya yd : Value} {V : Visited} :
      (Value.pair x).eqv fp (.pair y) = false → h[x]? = some (.pair xa xd) →
      h[y]? = some (.pair ya yd) → ¬ (k = 0 ∧ (x, y) ∈ V) →
      Opens ⟨.pair x, .pair y, V, k⟩ ⟨xa, ya, if k = 0 then (x, y) :: V else V, k - 1⟩
  | cdr {x y n k : ℕ} {xa xd ya yd : Value} {V V₁ : Visited} :
      (Value.pair x).eqv fp (.pair y) = false → h[x]? = some (.pair xa xd) →
      h[y]? = some (.pair ya yd) → ¬ (k = 0 ∧ (x, y) ∈ V) →
      equalRec fp h n xa ya (if k = 0 then (x, y) :: V else V) (k - 1) = some (true, V₁) →
      Opens ⟨.pair x, .pair y, V, k⟩ ⟨xd, yd, V₁, k - 1⟩
  | item {c c' : Comparison} : OpensItem fp h c c' → Opens c c'

/-- **A comparison goes round in a circle of vectors**: nested in it is a comparison of two
vectors in which, with only vectors in between, the same two are compared again. -/
def Circles (c : Comparison) : Prop :=
  ∃ s t, Relation.ReflTransGen (Opens fp h) c s ∧ Relation.TransGen (OpensItem fp h) s t ∧
    t.a = s.a ∧ t.b = s.b

variable {fp h} {c c' s t : Comparison}

/-- A comparison that makes one without an answer has none. -/
lemma Opens.unanswered (hc : Opens fp h c c') (hnone : ∀ n, c'.run fp h n = none) (n : ℕ) :
    c.run fp h n = none := by
  cases n with
  | zero => simp [Comparison.run, equalRec]
  | succ n =>
    simp only [Comparison.run] at hnone ⊢
    cases hc with
    | car heqv hx hy hmet => simp [equalRec_pairs heqv hx hy, hmet, hnone n]
    | cdr heqv hx hy hmet hcar =>
      rw [equalRec_pairs heqv hx hy, if_neg hmet]
      rcases equalRec_agree hcar n with hn | hn
      · rw [hn]
      · rw [hn]
        exact hnone n
    | item hitem =>
      obtain ⟨heqv, hx, hy, hlen, hzip, hbefore⟩ := hitem
      rw [equalRec_vectors heqv hx hy hlen, hzip, equalAll_append]
      rcases agree_of_mono equalAll_mono hbefore n with hn | hn
      · rw [hn]
      · rw [hn]
        exact equalAll_cons_none (hnone n)

/-! ### Circles of vectors -/

/-- As long as pairs are not remembered, everything remembered has been compared. -/
def Comparison.Closed (fp : FlonumOps) (h : Store) (c : Comparison) : Prop :=
  0 < c.fuel → ∀ p ∈ c.visited, ComparedParts fp h c.visited p.1 p.2

lemma closed_of_adds (hV : ∀ p ∈ V, ComparedParts fp h V p.1 p.2) (hadds : Adds fp h V V₁) :
    ∀ p ∈ V₁, ComparedParts fp h V₁ p.1 p.2 := by
  intro p hp
  rcases hadds.2 p hp with hp | hp
  · exact (hV p hp).mono hadds.1
  · exact hp

lemma adds_equalAll (heq : equalAll fp h n k ps V = some (true, V₁)) :
    Adds fp h V V₁ ∧ ∀ p ∈ ps, ∃ v v', equalRec fp h n p.1 p.2 v k = some (true, v') ∧ v' ⊆ V₁ :=
  adds_allEqual (fun _ _ _ _ hab => adds_equalRec hab) heq

lemma Opens.closed (hc : Opens fp h c c') (hclosed : c.Closed fp h) : c'.Closed fp h := by
  intro hfuel
  cases hc with
  | car _ _ _ _ =>
    dsimp only at hfuel ⊢
    rw [if_neg (by omega)]
    exact hclosed (by dsimp only; omega)
  | cdr _ _ _ _ hcar =>
    dsimp only at hfuel
    have hadds := adds_equalRec hcar
    rw [if_neg (by omega)] at hadds
    exact closed_of_adds (hclosed (by dsimp only; omega)) hadds
  | item hitem =>
    obtain ⟨-, -, -, -, -, hbefore⟩ := hitem
    dsimp only at hfuel
    exact closed_of_adds (hclosed (by dsimp only; omega)) (adds_equalAll hbefore).1

/-- Once pairs are remembered, a comparison that has answered `true` does so again, without
meeting anything new. -/
lemma equalRec_settled (heq : equalRec fp h n a b V 0 = some (true, V₁)) (hV : V₁ ⊆ V') :
    equalRec fp h n a b V' 0 = some (true, V') := by
  induction n generalizing a b V V₁ with
  | zero => simp [equalRec] at heq
  | succ n ih =>
    cases shape fp h a b with
    | flat r hflat =>
      rw [hflat] at heq ⊢
      simp only [Option.some.injEq, Prod.mk.injEq] at heq ⊢
      exact ⟨heq.1, trivial⟩
    | @pairs x y xa xd ya yd ha hb heqv hx hy =>
      subst ha hb
      have hmem : (x, y) ∈ V₁ := by
        rw [equalRec_pairs heqv hx hy] at heq
        split at heq
        · rename_i hmet
          cases heq
          exact hmet.2
        · split at heq
          · rename_i hcar
            exact (adds_equalRec heq).1 ((adds_equalRec hcar).1 (by simp))
          · rename_i hne
            exact absurd heq (hne V₁)
      rw [equalRec_pairs heqv hx hy, if_pos ⟨rfl, hV hmem⟩]
    | vectors ha hb heqv hx hy hlen =>
      subst ha hb
      rw [equalRec_vectors heqv hx hy hlen] at heq ⊢
      have hitems := (adds_equalAll heq).2
      rename_i xs ys
      generalize xs.zip ys = ps at hitems
      induction ps with
      | nil => rfl
      | cons p ps ihps =>
        obtain ⟨v, v', hp, hv'⟩ := hitems p (by simp)
        have hp' := ih hp (List.Subset.trans hv' hV)
        simp only [equalAll, allEqual, hp']
        exact ihps fun q hq => hitems q (List.mem_cons_of_mem p hq)

/-- A comparison never answers `false` once this much is remembered. -/
def NeverFalse (fp : FlonumOps) (h : Store) (V : Visited) (k : ℕ) (p : Value × Value) : Prop :=
  ∀ n V' k' V₁, V ⊆ V' → k' ≤ k → equalRec fp h n p.1 p.2 V' k' ≠ some (false, V₁)

/-- The items compared before never differ later. -/
lemma neverFalse_of_equalAll (hclosed : 0 < k → ∀ p ∈ V, ComparedParts fp h V p.1 p.2)
    (heq : equalAll fp h n k ps V = some (true, V₁)) : ∀ p ∈ ps, NeverFalse fp h V₁ k p := by
  intro p hp m V' k' V2 hV hk hfalse
  obtain ⟨hadds, hps⟩ := adds_equalAll heq
  obtain ⟨v, v', hv, hv'⟩ := hps p hp
  rcases Nat.eq_zero_or_pos k with rfl | hpos
  · obtain rfl : k' = 0 := by omega
    rcases equalRec_agree (equalRec_settled hv (List.Subset.trans hv' hV)) m with hm | hm
    · simp [hm] at hfalse
    · simp [hm] at hfalse
  · refine equalRec_ne_false (fun d => ?_) hfalse
    exact sameTo_of_compared (closed_of_adds (hclosed hpos) hadds) ⟨n, v, v', k, hv, hv'⟩

lemma equalAll_never (hps : ∀ p ∈ ps, NeverFalse fp h V k p) (hV : V ⊆ V') (hk : m ≤ k) :
    equalAll fp h n m ps V' = none ∨ ∃ V2, V ⊆ V2 ∧ equalAll fp h n m ps V' = some (true, V2) := by
  induction ps generalizing V' with
  | nil => exact .inr ⟨V', hV, rfl⟩
  | cons p ps ih =>
    have hp := hps p (by simp) n V' m
    rcases hrec : equalRec fp h n p.1 p.2 V' m with _ | ⟨_ | _, V₁⟩
    · exact .inl (equalAll_cons_none hrec)
    · exact absurd hrec (hp V₁ hV hk)
    · simp only [equalAll, allEqual, hrec]
      exact ih (fun q hq => hps q (List.mem_cons_of_mem p hq))
        (List.Subset.trans hV (adds_equalRec hrec).1)

/-- **A set of comparisons of vectors each of which comes to another one of them** has no
answers. -/
lemma equalRec_trapped {N : Value × Value → Prop}
    (hN : ∀ q, N q → ∃ x y xs ys before after p, q = (.vector x, .vector y) ∧
      (Value.vector x).eqv fp (.vector y) = false ∧ h[x]? = some (.vector xs) ∧
      h[y]? = some (.vector ys) ∧ xs.length = ys.length ∧ xs.zip ys = before ++ p :: after ∧ N p ∧
      ∀ p ∈ before, NeverFalse fp h V k p) {q : Value × Value} (hq : N q) (hV : V ⊆ V')
    (hm : m ≤ k) : equalRec fp h n q.1 q.2 V' m = none := by
  induction n generalizing q V' m with
  | zero => simp [equalRec]
  | succ n ih =>
    obtain ⟨x, y, xs, ys, before, after, p, rfl, heqv, hx, hy, hlen, hzip, hp, hbefore⟩ := hN q hq
    rw [equalRec_vectors heqv hx hy hlen, hzip, equalAll_append]
    rcases equalAll_never hbefore hV (show m - 1 ≤ k by omega) with hnone | ⟨V2, hV2, hsome⟩
    · rw [hnone]
    · rw [hsome]
      exact equalAll_cons_none (ih hp hV2 (by omega))

lemma OpensItem.grows (hst : Relation.ReflTransGen (OpensItem fp h) s t) :
    s.visited ⊆ t.visited ∧ t.fuel ≤ s.fuel := by
  induction hst with
  | refl => exact ⟨fun _ hp => hp, le_rfl⟩
  | tail _ hstep ih =>
    obtain ⟨-, -, -, -, -, hbefore⟩ := hstep
    exact ⟨List.Subset.trans ih.1 (adds_equalAll hbefore).1.1, (Nat.sub_le _ 1).trans ih.2⟩

/-- **A circle of vectors has no answer.** -/
lemma Circles.unanswered (hc : Circles fp h c) (hclosed : c.Closed fp h) (n : ℕ) :
    c.run fp h n = none := by
  obtain ⟨s, t, hcs, hst, ha, hb⟩ := hc
  have hreach : ∀ u, Relation.ReflTransGen (OpensItem fp h) s u → u.Closed fp h := by
    intro u hsu
    have hcu : Relation.ReflTransGen (Opens fp h) c u :=
      hcs.trans (hsu.lift id fun _ _ => Opens.item)
    clear hsu hcs
    induction hcu with
    | refl => exact hclosed
    | tail _ hstep ih => exact hstep.closed ih
  have ht : ∀ n, t.run fp h n = none := by
    intro n
    refine equalRec_trapped (N := fun q => ∃ u, Relation.ReflTransGen (OpensItem fp h) s u ∧
      Relation.TransGen (OpensItem fp h) u t ∧ q = (u.a, u.b)) (q := (t.a, t.b)) ?_
      ⟨s, .refl, hst, by rw [ha, hb]⟩ (List.Subset.refl t.visited) (le_refl t.fuel)
    rintro q ⟨u, hsu, hut, rfl⟩
    obtain ⟨u', hstep, hu't⟩ := Relation.TransGen.head'_iff.1 hut
    obtain ⟨hVt, hkt⟩ := OpensItem.grows hu't
    have hsu' := hsu.tail hstep
    have hu := hreach u hsu
    cases hstep with
    | @mk x y n k xs ys before after c d V V₁ heqv hx hy hlen hzip hbefore =>
      have hnever := neverFalse_of_equalAll (fun hk => hu (by dsimp only; omega)) hbefore
      refine ⟨x, y, xs, ys, before, after, (c, d), rfl, heqv, hx, hy, hlen, hzip, ?_, ?_⟩
      · rcases Relation.reflTransGen_iff_eq_or_transGen.1 hu't with rfl | hu't
        · exact ⟨s, .refl, hst, by rw [← ha, ← hb]⟩
        · exact ⟨_, hsu', hu't, rfl⟩
      · intro p hp n V' k' V2 hV hk
        exact hnever p hp n V' k' V2 (List.Subset.trans hVt hV) (hk.trans hkt)
  have hct : Relation.ReflTransGen (Opens fp h) c t :=
    hcs.trans (hst.to_reflTransGen.lift id fun _ _ => Opens.item)
  clear hreach hst hcs ha hb
  induction hct with
  | refl => exact ht n
  | tail _ hstep ih => exact ih (hstep.unanswered ht)

/-! ### A comparison without circles -/

/-- A comparison returns if all those it makes do. -/
lemma returns_of_opens (hc : ∀ c', Opens fp h c c' → ∃ n r, c'.run fp h n = some r) :
    ∃ n r, c.run fp h n = some r := by
  obtain ⟨a, b, V, k⟩ := c
  simp only [Comparison.run] at hc ⊢
  cases shape fp h a b with
  | flat r hflat => exact ⟨1, _, hflat 0 V k⟩
  | @pairs x y xa xd ya yd ha hb heqv hx hy =>
    subst ha hb
    by_cases hmet : k = 0 ∧ (x, y) ∈ V
    · exact ⟨1, (true, V), by rw [equalRec_pairs heqv hx hy, if_pos hmet]⟩
    · obtain ⟨n, ⟨r, V₁⟩, hcar⟩ := hc _ (.car heqv hx hy hmet)
      cases r with
      | false => exact ⟨n + 1, (false, V₁), by simp [equalRec_pairs heqv hx hy, hmet, hcar]⟩
      | true =>
        obtain ⟨m, r, hcdr⟩ := hc _ (.cdr heqv hx hy hmet hcar)
        refine ⟨max n m + 1, r, ?_⟩
        rw [equalRec_pairs heqv hx hy, if_neg hmet, equalRec_mono hcar (Nat.le_max_left n m)]
        exact equalRec_mono hcdr (Nat.le_max_right n m)
  | @vectors x y xs ys ha hb heqv hx hy hlen =>
    subst ha hb
    have hrest : ∀ after before n V₁, xs.zip ys = before ++ after →
        equalAll fp h n (k - 1) before V = some (true, V₁) →
        ∃ m r, equalAll fp h m (k - 1) after V₁ = some r := by
      intro after
      induction after with
      | nil => exact fun before n V₁ _ _ => ⟨0, (true, V₁), rfl⟩
      | cons p after ih =>
        intro before n V₁ hzip hbefore
        obtain ⟨n1, ⟨r, V2⟩, hp⟩ := hc _ (.item ⟨heqv, hx, hy, hlen, hzip, hbefore⟩)
        cases r with
        | false => exact ⟨n1, (false, V2), by simp [equalAll, allEqual, hp]⟩
        | true =>
          have hbefore' : equalAll fp h (max n n1) (k - 1) (before ++ [p]) V = some (true, V2) := by
            rw [equalAll_append, equalAll_mono hbefore (Nat.le_max_left n n1)]
            simp [equalAll, allEqual, equalRec_mono hp (Nat.le_max_right n n1)]
          obtain ⟨n2, r, hafter⟩ := ih (before ++ [p]) _ V2 (by simp [hzip]) hbefore'
          refine ⟨max n1 n2, r, ?_⟩
          simp only [equalAll, allEqual, equalRec_mono hp (Nat.le_max_left n1 n2)]
          exact equalAll_mono hafter (Nat.le_max_right n1 n2)
    obtain ⟨m, r, hm⟩ := hrest (xs.zip ys) [] 0 V rfl rfl
    exact ⟨m + 1, r, by rw [equalRec_vectors heqv hx hy hlen, hm]⟩

lemma lawfulBEq_pair : LawfulBEq (ℕ × ℕ) := inferInstance

/-- The pairs of addresses that are not remembered. -/
def unmet (h : Store) (V : Visited) : Finset (ℕ × ℕ) :=
  haveI := lawfulBEq_pair
  (Finset.range h.length ×ˢ Finset.range h.length).filter (· ∉ V)

lemma unmet_anti (hV : V ⊆ V') : unmet h V' ⊆ unmet h V := by
  intro p hp
  simp only [unmet, Finset.mem_filter] at hp ⊢
  exact ⟨hp.1, fun hmem => hp.2 (hV hmem)⟩

/-- What a comparison makes once pairs are remembered: it leaves fewer pairs to remember, or it
is a comparison of items. -/
lemma Opens.unmet (hc : Opens fp h c c') (hfuel : c.fuel = 0) :
    (unmet h c'.visited).card ≤ (unmet h c.visited).card ∧
      ((unmet h c'.visited).card < (unmet h c.visited).card ∨ OpensItem fp h c c') := by
  have hlt : ∀ {x y : ℕ} {xa xd ya yd : Value} {V V₁ : Visited}, h[x]? = some (.pair xa xd) →
      h[y]? = some (.pair ya yd) → (x, y) ∉ V → (x, y) :: V ⊆ V₁ →
      (Data.unmet h V₁).card < (Data.unmet h V).card := by
    intro x y xa xd ya yd V V₁ hx hy hxy hV
    refine Finset.card_lt_card (Finset.ssubset_iff_subset_ne.2
      ⟨unmet_anti (List.Subset.trans (List.subset_cons_self _ _) hV), fun heq => ?_⟩)
    have hmem : (x, y) ∈ Data.unmet h V := by
      have hx' := (List.getElem?_eq_some_iff.1 hx).1
      have hy' := (List.getElem?_eq_some_iff.1 hy).1
      simp [Data.unmet, hx', hy', hxy]
    rw [← heq] at hmem
    simp only [Data.unmet, Finset.mem_filter] at hmem
    exact hmem.2 (hV (by simp))
  cases hc with
  | car heqv hx hy hmet =>
    dsimp only at hfuel ⊢
    subst hfuel
    have h1 := hlt hx hy (fun hmem => hmet ⟨rfl, hmem⟩) (List.Subset.refl _)
    exact ⟨h1.le, .inl h1⟩
  | cdr heqv hx hy hmet hcar =>
    subst hfuel
    have h1 := hlt hx hy (fun hmem => hmet ⟨rfl, hmem⟩) (adds_equalRec hcar).1
    exact ⟨h1.le, .inl h1⟩
  | item hitem =>
    refine ⟨?_, .inr hitem⟩
    obtain ⟨-, -, -, -, -, hbefore⟩ := hitem
    exact Finset.card_le_card (unmet_anti (adds_equalAll hbefore).1.1)

lemma Opens.fuel (hc : Opens fp h c c') : c'.fuel = c.fuel - 1 := by
  cases hc with
  | item hitem => cases hitem; rfl
  | _ => rfl

/-- **Comparisons nested without end go round in a circle of vectors.** -/
lemma circles_of_chain {f : ℕ → Comparison} (hf : ∀ n, Opens fp h (f n) (f (n + 1))) :
    Circles fp h (f 0) := by
  have hfuel : ∀ n, (f n).fuel = (f 0).fuel - n := by
    intro n
    induction n with
    | zero => rfl
    | succ n ih => rw [(hf n).fuel]; omega
  -- after the counter is used up, take the place where the fewest pairs are left
  let left (m : ℕ) : ℕ := (unmet h (f ((f 0).fuel + m)).visited).card
  obtain ⟨_, ⟨N, rfl⟩, hmin⟩ := Nat.lt_wfRel.wf.has_min (Set.range left) ⟨_, 0, rfl⟩
  have hmin : ∀ m, left N ≤ left m := fun m => not_lt.1 (hmin _ ⟨m, rfl⟩)
  let g (m : ℕ) : Comparison := f ((f 0).fuel + N + m)
  have hstep : ∀ m, left (m + 1) ≤ left m ∧
      (left (m + 1) < left m ∨ OpensItem fp h (f ((f 0).fuel + m)) (f ((f 0).fuel + m + 1))) :=
    fun m => (hf ((f 0).fuel + m)).unmet (by rw [hfuel]; omega)
  have hleft : ∀ m, left (N + m) = left N := by
    intro m
    induction m with
    | zero => rfl
    | succ m ih => exact le_antisymm ((hstep (N + m)).1.trans ih.le) (hmin _)
  have hitem : ∀ m, OpensItem fp h (g m) (g (m + 1)) := by
    intro m
    rcases (hstep (N + m)).2 with hlt | hitem
    · have h1 := hleft m
      have h2 := hleft (m + 1)
      rw [← add_assoc] at h2
      omega
    · simpa only [g, add_assoc] using hitem
  have haddr : ∀ m, ∃ q : Fin h.length × Fin h.length,
      (g m).a = .vector q.1 ∧ (g m).b = .vector q.2 := by
    intro m
    have hm := hitem m
    generalize g m = c, g (m + 1) = c' at hm
    cases hm with
    | mk _ hx hy _ _ _ =>
      exact ⟨(⟨_, (List.getElem?_eq_some_iff.1 hx).1⟩, ⟨_, (List.getElem?_eq_some_iff.1 hy).1⟩),
        rfl, rfl⟩
  choose q hq using haddr
  obtain ⟨i, j, hij, hqij⟩ : ∃ i j, i < j ∧ q i = q j := by
    obtain ⟨i, j, hne, heq⟩ := Finite.exists_ne_map_eq_of_infinite q
    rcases Nat.lt_or_gt_of_ne hne with hij | hij
    · exact ⟨i, j, hij, heq⟩
    · exact ⟨j, i, hij, heq.symm⟩
  have hchain : ∀ d, Relation.TransGen (OpensItem fp h) (g i) (g (i + d + 1)) := by
    intro d
    induction d with
    | zero => exact .single (hitem i)
    | succ d ih => exact ih.tail (hitem (i + d + 1))
  have hreach : ∀ n, Relation.ReflTransGen (Opens fp h) (f 0) (f n) := by
    intro n
    induction n with
    | zero => exact .refl
    | succ n ih => exact ih.tail (hf n)
  refine ⟨g i, g j, hreach _, ?_, ?_, ?_⟩
  · obtain ⟨d, rfl⟩ : ∃ d, j = i + d + 1 := ⟨j - i - 1, by omega⟩
    exact hchain d
  · rw [(hq i).1, (hq j).1, hqij]
  · rw [(hq i).2, (hq j).2, hqij]

/-- Two vectors that hold themselves. -/
def selfVectors : Store := [.vector [.vector 0], .vector [.vector 1]]

end Returns

end CrabScheme.Data
