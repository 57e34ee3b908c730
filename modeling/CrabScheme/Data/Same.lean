import CrabScheme.Data.Hash

/-!
# What `equal?` decides

Two values are *the same* if they cannot be told apart by looking into pairs, vectors, strings and
bytevectors down to any depth, where objects and numbers that are `eqv?` count as the same at once.
On finite and on circular structure alike, `equal?` decides this relation whenever it returns: the
addresses it takes for granted once its counter is used up have been compared, or are about to be.

## Main results

* `equalRec_decides` — an answer of `equal?` is right.
* `Same.symm`, `Same.trans`.
-/

namespace CrabScheme

/-! ### The comparison of doubles -/

variable {f g : F64}

lemma F64.ieeeEq_iff : f.ieeeEq g = true ↔ f.isNan = false ∧ g.isNan = false ∧
    (f = g ∨ (f = ⟨0⟩ ∨ f = F64.negZero) ∧ (g = ⟨0⟩ ∨ g = F64.negZero)) := by
  simp [F64.ieeeEq, and_assoc]

lemma F64.ieeeEq_symm (h : f.ieeeEq g = true) : g.ieeeEq f = true := by
  rw [F64.ieeeEq_iff] at h ⊢
  obtain ⟨hf, hg, heq | hzero⟩ := h
  · exact ⟨hg, hf, .inl heq.symm⟩
  · exact ⟨hg, hf, .inr hzero.symm⟩

lemma F64.ieeeEq_trans {k : F64} (h : f.ieeeEq g = true) (h' : g.ieeeEq k = true) :
    f.ieeeEq k = true := by
  rw [F64.ieeeEq_iff] at h h' ⊢
  obtain ⟨hf, -, rfl | hfg⟩ := h
  · exact h'
  · obtain ⟨-, hk, rfl | hgk⟩ := h'
    · exact ⟨hf, hk, .inr hfg⟩
    · exact ⟨hf, hk, .inr ⟨hfg.1, hgk.2⟩⟩

end CrabScheme

namespace CrabScheme.Data

/-! ### `eqv?` -/

namespace Value

variable {fp : FlonumOps}

lemma eqv_number {x y : Number} : (Value.number x).eqv fp (.number y) = true ↔
    (∃ q, x.toRational = some q ∧ y.toRational = some q) ∨
      ∃ f g, x = .flonum f ∧ y = .flonum g ∧ fp.eq f g = true := by
  cases x <;> cases y <;> simp [eqv, asNumber, Number.eqValue, Number.toRational, Number.toF64] <;>
    exact eq_comm

lemma eqv_iff {a b : Value} : a.eqv fp b = true ↔ (a = b ∧ a.asNumber = none) ∨
    ∃ x y, a = .number x ∧ b = .number y ∧ (Value.number x).eqv fp (.number y) = true := by
  constructor
  · intro h
    rcases eq_of_eqv fp h with rfl | ⟨x, y, rfl, rfl⟩
    · cases ha : a.asNumber with
      | none => exact .inl ⟨rfl, rfl⟩
      | some x =>
        obtain rfl := eq_number_of_asNumber ha
        exact .inr ⟨x, x, rfl, rfl, h⟩
    · exact .inr ⟨x, y, rfl, rfl, h⟩
  · rintro (⟨rfl, ha⟩ | ⟨x, y, rfl, rfl, h⟩)
    · refine eqv_of_eq fp (eq_iff.2 ⟨rfl, ?_⟩)
      rintro n rfl
      cases ha
    · exact h

variable (hfp : fp.eq = F64.ieeeEq)
include hfp

lemma eqv_symm {a b : Value} (h : a.eqv fp b = true) : b.eqv fp a = true := by
  rw [eqv_iff] at h ⊢
  obtain ⟨rfl, ha⟩ | ⟨x, y, rfl, rfl, h⟩ := h
  · exact .inl ⟨rfl, ha⟩
  · refine .inr ⟨y, x, rfl, rfl, ?_⟩
    rw [eqv_number, hfp] at h ⊢
    obtain ⟨q, hx, hy⟩ | ⟨f, g, hx, hy, h⟩ := h
    · exact .inl ⟨q, hy, hx⟩
    · exact .inr ⟨g, f, hy, hx, F64.ieeeEq_symm h⟩

lemma eqv_trans {a b c : Value} (h : a.eqv fp b = true) (h' : b.eqv fp c = true) :
    a.eqv fp c = true := by
  rw [eqv_iff] at h
  obtain ⟨rfl, -⟩ | ⟨x, y, rfl, rfl, h⟩ := h
  · exact h'
  · rw [eqv_iff] at h'
    obtain ⟨rfl, hb⟩ | ⟨y', z, hy, rfl, h'⟩ := h'
    · cases hb
    · cases hy
      rw [eqv_number, hfp] at h h' ⊢
      obtain ⟨q, hx, hy⟩ | ⟨f, g, rfl, rfl, h⟩ := h
      · obtain ⟨q', hy', hz⟩ | ⟨f, g, rfl, -, -⟩ := h'
        · rw [hy] at hy'
          exact .inl ⟨q, hx, hy' ▸ hz⟩
        · cases hy
      · obtain ⟨q, hy, -⟩ | ⟨g', k, hg, rfl, h'⟩ := h'
        · cases hy
        · cases hg
          exact .inr ⟨f, k, rfl, rfl, F64.ieeeEq_trans h h'⟩

end Value

/-! ### The same down to a depth -/

section Same

variable (fp : FlonumOps) (h : Store)

/-- One level of the comparison, over a comparison of the parts. -/
def SameStep (R : Value → Value → Prop) (a b : Value) : Prop :=
  a.eqv fp b = true ∨
  (∃ x y s, a = .string x ∧ b = .string y ∧
    h[x]? = some (.string s) ∧ h[y]? = some (.string s)) ∨
  (∃ x y xa xd ya yd, a = .pair x ∧ b = .pair y ∧
    h[x]? = some (.pair xa xd) ∧ h[y]? = some (.pair ya yd) ∧ R xa ya ∧ R xd yd) ∨
  (∃ x y xs ys, a = .vector x ∧ b = .vector y ∧
    h[x]? = some (.vector xs) ∧ h[y]? = some (.vector ys) ∧ List.Forall₂ R xs ys) ∨
  (∃ x y s, a = .byteVector x ∧ b = .byteVector y ∧
    h[x]? = some (.byteVector s) ∧ h[y]? = some (.byteVector s))

/-- Two values cannot be told apart by looking down to a depth. -/
def SameTo : ℕ → Value → Value → Prop
  | 0, _, _ => True
  | d + 1, a, b => SameStep fp h (SameTo d) a b

/-- **Two values cannot be told apart.** -/
def Same (a b : Value) : Prop := ∀ d, SameTo fp h d a b

variable {fp h}
variable {d n : ℕ} {visited visited' V : Visited}

section Laws

variable {R R' : Value → Value → Prop} {a b c : Value}

lemma forall₂_trans (hR : ∀ a b c, R a b → R b c → R a c) {xs ys zs : List Value}
    (hxy : List.Forall₂ R xs ys) (hyz : List.Forall₂ R ys zs) : List.Forall₂ R xs zs := by
  induction hxy generalizing zs with
  | nil => exact hyz
  | cons hab _ ih =>
    cases hyz with
    | cons hbc hrest => exact .cons (hR _ _ _ hab hbc) (ih hrest)

variable (hfp : fp.eq = F64.ieeeEq)
include hfp

lemma SameStep.symm (hR : ∀ a b, R a b → R' b a) (hab : SameStep fp h R a b) :
    SameStep fp h R' b a := by
  rcases hab with heqv | ⟨x, y, s, ha, hb, hx, hy⟩ |
    ⟨x, y, xa, xd, ya, yd, ha, hb, hx, hy, hcar, hcdr⟩ |
    ⟨x, y, xs, ys, ha, hb, hx, hy, hitems⟩ | ⟨x, y, s, ha, hb, hx, hy⟩
  · exact .inl (Value.eqv_symm hfp heqv)
  · exact .inr (.inl ⟨y, x, s, hb, ha, hy, hx⟩)
  · exact .inr (.inr (.inl ⟨y, x, ya, yd, xa, xd, hb, ha, hy, hx, hR _ _ hcar, hR _ _ hcdr⟩))
  · exact .inr (.inr (.inr (.inl ⟨y, x, ys, xs, hb, ha, hy, hx, (hitems.imp hR).flip⟩)))
  · exact .inr (.inr (.inr (.inr ⟨y, x, s, hb, ha, hy, hx⟩)))

lemma SameStep.trans (hR : ∀ a b c, R a b → R b c → R a c) (hab : SameStep fp h R a b)
    (hbc : SameStep fp h R b c) : SameStep fp h R a c := by
  -- what is `eqv?` to an object is the object itself
  have hobj : b.asNumber = none → b.eqv fp c = true → b = c := by
    intro hb heqv
    rcases Value.eq_of_eqv fp heqv with heq | ⟨x, y, rfl, -⟩
    · exact heq
    · cases hb
  rcases hab with heqv | ⟨x, y, s, rfl, rfl, hx, hy⟩ |
    ⟨x, y, xa, xd, ya, yd, rfl, rfl, hx, hy, hcar, hcdr⟩ |
    ⟨x, y, xs, ys, rfl, rfl, hx, hy, hitems⟩ | ⟨x, y, s, rfl, rfl, hx, hy⟩
  · rcases Value.eq_of_eqv fp heqv with rfl | ⟨x, y, rfl, rfl⟩
    · exact hbc
    · rcases hbc with heqv' | ⟨_, _, _, hb, -⟩ | ⟨_, _, _, _, _, _, hb, -⟩ |
        ⟨_, _, _, _, hb, -⟩ | ⟨_, _, _, hb, -⟩
      · exact .inl (Value.eqv_trans hfp heqv heqv')
      all_goals cases hb
  · rcases hbc with heqv' | ⟨y', z, s', hb, rfl, hy', hz⟩ | ⟨_, _, _, _, _, _, hb, -⟩ |
      ⟨_, _, _, _, hb, -⟩ | ⟨_, _, _, hb, -⟩
    · exact .inr (.inl ⟨x, y, s, rfl, (hobj rfl heqv').symm, hx, hy⟩)
    · cases hb
      cases hy.symm.trans hy'
      exact .inr (.inl ⟨x, z, s, rfl, rfl, hx, hz⟩)
    all_goals cases hb
  · rcases hbc with heqv' | ⟨_, _, _, hb, -⟩ |
      ⟨y', z, ya', yd', za, zd, hb, rfl, hy', hz, hcar', hcdr'⟩ | ⟨_, _, _, _, hb, -⟩ |
      ⟨_, _, _, hb, -⟩
    · exact .inr (.inr (.inl
        ⟨x, y, xa, xd, ya, yd, rfl, (hobj rfl heqv').symm, hx, hy, hcar, hcdr⟩))
    · cases hb
    · cases hb
      cases hy.symm.trans hy'
      exact .inr (.inr (.inl ⟨x, z, xa, xd, za, zd, rfl, rfl, hx, hz, hR _ _ _ hcar hcar',
        hR _ _ _ hcdr hcdr'⟩))
    all_goals cases hb
  · rcases hbc with heqv' | ⟨_, _, _, hb, -⟩ | ⟨_, _, _, _, _, _, hb, -⟩ |
      ⟨y', z, ys', zs, hb, rfl, hy', hz, hitems'⟩ | ⟨_, _, _, hb, -⟩
    · exact .inr (.inr (.inr (.inl ⟨x, y, xs, ys, rfl, (hobj rfl heqv').symm, hx, hy, hitems⟩)))
    · cases hb
    · cases hb
    · cases hb
      cases hy.symm.trans hy'
      exact .inr (.inr (.inr (.inl ⟨x, z, xs, zs, rfl, rfl, hx, hz,
        forall₂_trans hR hitems hitems'⟩)))
    · cases hb
  · rcases hbc with heqv' | ⟨_, _, _, hb, -⟩ | ⟨_, _, _, _, _, _, hb, -⟩ |
      ⟨_, _, _, _, hb, -⟩ | ⟨y', z, s', hb, rfl, hy', hz⟩
    · exact .inr (.inr (.inr (.inr ⟨x, y, s, rfl, (hobj rfl heqv').symm, hx, hy⟩)))
    · cases hb
    · cases hb
    · cases hb
    · cases hb
      cases hy.symm.trans hy'
      exact .inr (.inr (.inr (.inr ⟨x, z, s, rfl, rfl, hx, hz⟩)))

lemma SameTo.symm (hab : SameTo fp h d a b) : SameTo fp h d b a := by
  induction d generalizing a b with
  | zero => trivial
  | succ d ih => exact SameStep.symm hfp (fun _ _ => ih) hab

lemma SameTo.trans (hab : SameTo fp h d a b) (hbc : SameTo fp h d b c) : SameTo fp h d a c := by
  induction d generalizing a b c with
  | zero => trivial
  | succ d ih => exact SameStep.trans hfp (fun _ _ _ => ih) hab hbc

lemma Same.symm (hab : Same fp h a b) : Same fp h b a := fun d => (hab d).symm hfp

lemma Same.trans (hab : Same fp h a b) (hbc : Same fp h b c) : Same fp h a c :=
  fun d => (hab d).trans hfp (hbc d)

end Laws

lemma Same.alike {a b : Value} (hab : Same fp h a b) (d : ℕ) : Alike fp h d a b := by
  have hto := hab d
  clear hab
  induction d generalizing a b with
  | zero => trivial
  | succ d ih =>
    rcases hto with heqv | hs | ⟨x, y, xa, xd, ya, yd, ha, hb, hx, hy, hcar, hcdr⟩ |
      ⟨x, y, xs, ys, ha, hb, hx, hy, hitems⟩ | hbytes
    · exact alike_of_eqv heqv (d + 1)
    · exact .inr (.inr (.inl hs))
    · exact .inr (.inr (.inr (.inl ⟨x, y, xa, xd, ya, yd, ha, hb, hx, hy, ih hcar, ih hcdr⟩)))
    · exact .inr (.inr (.inr (.inr (.inl
        ⟨x, y, xs, ys, ha, hb, hx, hy, hitems.imp fun _ _ => ih⟩))))
    · exact .inr (.inr (.inr (.inr (.inr hbytes))))

/-! ### An answer `false` -/

lemma Same.step {a b : Value} (hab : Same fp h a b) : SameStep fp h (Same fp h) a b := by
  by_cases heqv : a.eqv fp b = true
  · exact .inl heqv
  rcases (hab 1).resolve_left heqv with hs | ⟨x, y, xa, xd, ya, yd, rfl, rfl, hx, hy, -⟩ |
    ⟨x, y, xs, ys, rfl, rfl, hx, hy, hlen⟩ | hbytes
  · exact .inr (.inl hs)
  · have hparts : ∀ d, SameTo fp h d xa ya ∧ SameTo fp h d xd yd := by
      intro d
      rcases (hab (d + 1)).resolve_left heqv with ⟨_, _, _, ha, -⟩ |
        ⟨x', y', xa', xd', ya', yd', ha, hb, hx', hy', hcar, hcdr⟩ | ⟨_, _, _, _, ha, -⟩ |
        ⟨_, _, _, ha, -⟩
      · cases ha
      · cases ha
        cases hb
        cases hx.symm.trans hx'
        cases hy.symm.trans hy'
        exact ⟨hcar, hcdr⟩
      · cases ha
      · cases ha
    exact .inr (.inr (.inl ⟨x, y, xa, xd, ya, yd, rfl, rfl, hx, hy, fun d => (hparts d).1,
      fun d => (hparts d).2⟩))
  · have hparts : ∀ d, List.Forall₂ (SameTo fp h d) xs ys := by
      intro d
      rcases (hab (d + 1)).resolve_left heqv with ⟨_, _, _, ha, -⟩ | ⟨_, _, _, _, _, _, ha, -⟩ |
        ⟨x', y', xs', ys', ha, hb, hx', hy', hitems⟩ | ⟨_, _, _, ha, -⟩
      · cases ha
      · cases ha
      · cases ha
        cases hb
        cases hx.symm.trans hx'
        cases hy.symm.trans hy'
        exact hitems
      · cases ha
    refine .inr (.inr (.inr (.inl ⟨x, y, xs, ys, rfl, rfl, hx, hy, ?_⟩)))
    refine List.forall₂_iff_get.2 ⟨hlen.length_eq, fun i hi hj d => ?_⟩
    exact (List.forall₂_iff_get.1 (hparts d)).2 i hi hj
  · exact .inr (.inr (.inr (.inr hbytes)))

lemma allEqual_ne_false {f : Value → Value → Visited → Option (Bool × Visited)}
    {R : Value → Value → Prop}
    (hf : ∀ a b visited visited', R a b → f a b visited ≠ some (false, visited'))
    {xs ys : List Value} (hxy : List.Forall₂ R xs ys) :
    allEqual f (xs.zip ys) visited ≠ some (false, visited') := by
  induction hxy generalizing visited with
  | nil => simp [allEqual]
  | cons hab _ ih =>
    rw [List.zip_cons_cons, allEqual]
    split
    · exact ih
    · exact hf _ _ _ _ hab

lemma equalRec_ne_false {fuel : ℕ} {a b : Value} (hab : Same fp h a b)
    : equalRec fp h n a b visited fuel ≠ some (false, visited') := by
  induction n generalizing a b visited visited' fuel with
  | zero => simp [equalRec]
  | succ n ih =>
    unfold equalRec
    split
    · simp
    · rename_i heqv
      rcases hab.step.resolve_left heqv with ⟨x, y, s, rfl, rfl, hx, hy⟩ |
        ⟨x, y, xa, xd, ya, yd, rfl, rfl, hx, hy, hcar, hcdr⟩ |
        ⟨x, y, xs, ys, rfl, rfl, hx, hy, hitems⟩ | ⟨x, y, s, rfl, rfl, hx, hy⟩
      · simp [hx, hy]
      · simp only [hx, hy]
        split
        · simp
        · split
          · exact ih hcdr
          · exact ih hcar
      · simp only [hx, hy]
        rw [if_neg (not_not.2 hitems.length_eq)]
        exact allEqual_ne_false (R := Same fp h) (fun _ _ _ _ hR => ih hR) hitems
      · simp [hx, hy]

/-! ### An answer `true` -/

/-- A comparison has answered `true`, and has met no more addresses than these. -/
def Compared (fp : FlonumOps) (h : Store) (V : Visited) (a b : Value) : Prop :=
  ∃ n visited visited' fuel, equalRec fp h n a b visited fuel = some (true, visited') ∧
    visited' ⊆ V

/-- The parts of two pairs have been compared. -/
def ComparedParts (fp : FlonumOps) (h : Store) (V : Visited) (x y : ℕ) : Prop :=
  ∀ xa xd ya yd, h[x]? = some (.pair xa xd) → h[y]? = some (.pair ya yd) →
    Compared fp h V xa ya ∧ Compared fp h V xd yd

lemma Compared.mono {V' : Visited} {a b : Value} (hV : V ⊆ V') (hab : Compared fp h V a b) :
    Compared fp h V' a b := by
  obtain ⟨n, visited, visited', fuel, heq, hsub⟩ := hab
  exact ⟨n, visited, visited', fuel, heq, List.Subset.trans hsub hV⟩

lemma ComparedParts.mono {V' : Visited} {x y : ℕ} (hV : V ⊆ V') (hxy : ComparedParts fp h V x y)
    : ComparedParts fp h V' x y :=
  fun xa xd ya yd hx hy => ((hxy xa xd ya yd hx hy).imp (.mono hV) (.mono hV))

/-- **The addresses a comparison adds**: their parts have been compared when it answers `true`. -/
def Adds (fp : FlonumOps) (h : Store) (visited visited' : Visited) : Prop :=
  visited ⊆ visited' ∧ ∀ p ∈ visited', p ∈ visited ∨ ComparedParts fp h visited' p.1 p.2

lemma Adds.refl (visited : Visited) : Adds fp h visited visited :=
  ⟨fun _ hp => hp, fun _ hp => .inl hp⟩

lemma Adds.trans {v1 v2 v3 : Visited} (h1 : Adds fp h v1 v2) (h2 : Adds fp h v2 v3) :
    Adds fp h v1 v3 := by
  refine ⟨List.Subset.trans h1.1 h2.1, fun p hp => ?_⟩
  rcases h2.2 p hp with hp | hp
  · exact (h1.2 p hp).imp_right (.mono h2.1)
  · exact .inr hp

lemma adds_allEqual {f : Value → Value → Visited → Option (Bool × Visited)}
    (hf : ∀ a b visited visited', f a b visited = some (true, visited') → Adds fp h visited visited')
    {ps : List (Value × Value)} (hall : allEqual f ps visited = some (true, visited')) :
    Adds fp h visited visited' ∧ ∀ p ∈ ps, ∃ v v', f p.1 p.2 v = some (true, v') ∧
      v' ⊆ visited' := by
  induction ps generalizing visited with
  | nil =>
    obtain rfl : visited = visited' := by simpa [allEqual] using hall
    exact ⟨.refl visited, by simp⟩
  | cons p ps ih =>
    obtain ⟨a, b⟩ := p
    rw [allEqual] at hall
    split at hall
    · rename_i visited1 hab
      obtain ⟨hadds, hps⟩ := ih hall
      refine ⟨(hf a b _ _ hab).trans hadds, List.forall_mem_cons.2 ⟨⟨_, _, hab, hadds.1⟩, hps⟩⟩
    · rename_i hne
      exact absurd hall (hne visited')

lemma adds_equalRec {fuel : ℕ} {a b : Value}
    (heq : equalRec fp h n a b visited fuel = some (true, visited')) :
    Adds fp h visited visited' := by
  induction n generalizing a b visited visited' fuel with
  | zero => simp [equalRec] at heq
  | succ n ih =>
    unfold equalRec at heq
    split at heq
    · cases heq
      exact .refl _
    · split at heq
      · split at heq <;> simp at heq
        exact heq.2 ▸ .refl _
      · split at heq
        · rename_i xa xd ya yd hx hy
          split at heq
          · cases heq
            exact .refl _
          · dsimp only at heq
            split at heq
            · rename_i visited1 hcar
              have hparts := (ih hcar).trans (ih heq)
              split at hparts
              · -- the pair itself is added, and its parts are compared
                refine ⟨fun p hp => hparts.1 (List.mem_cons_of_mem _ hp), fun p hp => ?_⟩
                rcases hparts.2 p hp with hp | hp
                · rcases List.mem_cons.1 hp with rfl | hp
                  · refine .inr fun xa' xd' ya' yd' hx' hy' => ?_
                    cases hx.symm.trans hx'
                    cases hy.symm.trans hy'
                    exact ⟨⟨n, _, _, _, hcar, (ih heq).1⟩, ⟨n, _, _, _, heq, fun _ hp => hp⟩⟩
                  · exact .inl hp
                · exact .inr hp
              · exact hparts
            · rename_i hne
              exact absurd heq (hne visited')
        · simp at heq
      · split at heq
        · split at heq
          · simp at heq
          · exact (adds_allEqual (fun _ _ _ _ hab => ih hab) heq).1
        · simp at heq
      · split at heq <;> simp at heq
        exact heq.2 ▸ .refl _
      · simp at heq

/-- What has been compared is the same to any depth, if the parts of all addresses met have been
compared. -/
lemma sameTo_of_compared (hV : ∀ p ∈ V, ComparedParts fp h V p.1 p.2) {a b : Value}
    (hab : Compared fp h V a b) : SameTo fp h d a b := by
  induction d generalizing a b with
  | zero => trivial
  | succ d ih =>
    obtain ⟨n, visited, visited', fuel, heq, hsub⟩ := hab
    cases n with
    | zero => simp [equalRec] at heq
    | succ n =>
      unfold equalRec at heq
      split at heq
      · rename_i heqv
        exact .inl heqv
      · split at heq
        · rename_i x y _
          split at heq
          · rename_i s t hx hy
            obtain ⟨hst, -⟩ : s = t ∧ visited = visited' := by simpa using heq
            exact .inr (.inl ⟨x, y, s, rfl, rfl, hx, hst ▸ hy⟩)
          · simp at heq
        · rename_i x y _
          split at heq
          · rename_i xa xd ya yd hx hy
            have hparts : Compared fp h V xa ya ∧ Compared fp h V xd yd := by
              split at heq
              · rename_i hmet
                cases heq
                exact hV (x, y) (hsub hmet.2) xa xd ya yd hx hy
              · dsimp only at heq
                split at heq
                · rename_i visited1 hcar
                  exact ⟨⟨n, _, _, _, hcar, List.Subset.trans (adds_equalRec heq).1 hsub⟩,
                    ⟨n, _, _, _, heq, hsub⟩⟩
                · rename_i hne
                  exact absurd heq (hne visited')
            exact .inr (.inr (.inl ⟨x, y, xa, xd, ya, yd, rfl, rfl, hx, hy, ih hparts.1,
              ih hparts.2⟩))
          · simp at heq
        · rename_i x y _
          split at heq
          · rename_i xs ys hx hy
            split at heq
            · simp at heq
            · rename_i hlen
              have hall := (adds_allEqual (fun _ _ _ _ hab => adds_equalRec hab) heq).2
              refine .inr (.inr (.inr (.inl ⟨x, y, xs, ys, rfl, rfl, hx, hy, ?_⟩)))
              refine List.forall₂_iff_zip.2 ⟨not_not.1 hlen, fun {a b} hp => ?_⟩
              obtain ⟨v, v', hab, hv'⟩ := hall (a, b) hp
              exact ih ⟨n, v, v', fuel - 1, hab, List.Subset.trans hv' hsub⟩
          · simp at heq
        · rename_i x y _
          split at heq
          · rename_i s t hx hy
            obtain ⟨hst, -⟩ : s = t ∧ visited = visited' := by simpa using heq
            exact .inr (.inr (.inr (.inr ⟨x, y, s, rfl, rfl, hx, hst ▸ hy⟩)))
          · simp at heq
        · simp at heq

/-- **An answer of `equal?` is right.** -/
theorem equalRec_decides {a b : Value} {r : Bool}
    (heq : equalRec fp h n a b [] 64 = some (r, visited)) : r = true ↔ Same fp h a b := by
  constructor
  · rintro rfl d
    have hadds := adds_equalRec heq
    exact sameTo_of_compared (fun p hp => (hadds.2 p hp).resolve_left List.not_mem_nil)
      ⟨n, [], visited, 64, heq, fun _ hp => hp⟩
  · intro hab
    cases r with
    | true => rfl
    | false => exact absurd heq (equalRec_ne_false hab)

end Same

end CrabScheme.Data
