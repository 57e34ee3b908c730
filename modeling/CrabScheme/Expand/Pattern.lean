import CrabScheme.Expand.SyntaxRules

/-!
# The patterns of `syntax-rules`

The grammar of patterns, and what the two passes see of their variables: the matcher collects the
variables of what repeats, the instantiator those of them that are bound to sequences.

## Main results

* `IsPattern.mem_collectPatternVars`,
  `IsPattern.mem_collectTemplateRepeatVarsInto` — what the passes collect.
-/

namespace CrabScheme.Expand

open List (Forall₂)

variable (fp : FlonumOps) (literals : List Name)

/-! ## Well-formed patterns -/

namespace Datum

/-- Whether a datum is a symbol. -/
def isSymbol : Datum → Bool
  | symbol _ => true
  | _ => false

/-- The occurrences of variables in a pattern: its symbols other than `...`. -/
def patternVars : Datum → List Name
  | symbol s => if s = ellipsisSym then [] else [s]
  | pair a d => patternVars a ++ patternVars d
  | _ => []

lemma patternVars_rebuild (items : List Datum) (tail : Datum) :
    (rebuildListWithTail items tail).patternVars = items.flatMap patternVars ++ tail.patternVars := by
  induction items with
  | nil => rfl
  | cons x items ih => simp [patternVars, ih]

/-- **Equal data**, as `equal?` has it: a number constant of a pattern stands for every number
that is `eqv?` to it. -/
inductive Alike : Datum → Datum → Prop
  | refl (d : Datum) : Alike d d
  | number {m n : Number} (h : eqvNumber fp m n = true) : Alike (.number m) (.number n)
  | pair {a a' d d' : Datum} (car : Alike a a') (cdr : Alike d d') :
    Alike (.pair a d) (.pair a' d')

lemma Alike.rebuild {outs inputs : List Datum} {tail tail' : Datum}
    (h : Forall₂ (Alike fp) outs inputs) (ht : Alike fp tail tail') :
    Alike fp (rebuildListWithTail outs tail) (rebuildListWithTail inputs tail') := by
  induction h with
  | nil => exact ht
  | cons hx _ ih => exact .pair hx ih

end Datum

/-- **The patterns of `syntax-rules`** without literals and underscores. The flag says whether the
pattern stands under an ellipsis. Outside the `full` language, a list has either an ellipsis or a
dotted tail, and what repeats has neither in it. -/
inductive IsPattern (full : Prop) : Bool → Datum → Prop
  | ident {u : Bool} {s : Name} (hell : s ≠ ellipsisSym) (hund : s ≠ underscoreSym)
    (hlit : s ∉ literals) : IsPattern full u (.symbol s)
  | constant {u : Bool} {d : Datum} (hpair : d.isPair = false) (hsym : d.isSymbol = false) :
    IsPattern full u d
  | list {u : Bool} {items : List Datum} {tail : Datum} (hne : items ≠ [])
    (hitems : ∀ x ∈ items, IsPattern full u x) (hpair : tail.isPair = false)
    (htail : IsPattern full u tail) (hdot : tail ≠ .null → u = true → full) :
    IsPattern full u (rebuildListWithTail items tail)
  | ellipsis {u : Bool} {pre post : List Datum} {rep tail : Datum}
    (hpre : ∀ x ∈ pre, IsPattern full u x) (hrep : IsPattern full true rep)
    (hvar : rep.patternVars ≠ []) (hpost : ∀ x ∈ post, IsPattern full u x)
    (hpair : tail.isPair = false) (htail : IsPattern full u tail)
    (hnest : u = true → full) (hdot : tail ≠ .null → full) :
    IsPattern full u (rebuildListWithTail (pre ++ rep :: .symbol ellipsisSym :: post) tail)

variable {fp literals} {full : Prop} {u : Bool} {p d input : Datum} {b b' c : Bindings}

lemma IsPattern.isEllipsis (h : IsPattern literals full u p) : p.isEllipsis = false := by
  cases h with
  | ident hell => simpa [Datum.isEllipsis] using hell
  | constant _ hsym => cases p <;> simp_all [Datum.isSymbol, Datum.isEllipsis]
  | @list _ items tail hne => cases items with
    | nil => exact absurd rfl hne
    | cons x items => rfl
  | @ellipsis _ pre => cases pre <;> rfl

/-! ## The variables the two passes see -/

lemma mem_collectPatternVarsInto {s : Name} : ∀ (p : Datum) (out : List Name),
    s ∈ collectPatternVarsInto literals p out ↔
      s ∈ out ∨ s ∈ p.patternVars ∧ s ≠ underscoreSym ∧ s ∉ literals
  | .symbol t, out => by
    unfold collectPatternVarsInto Datum.patternVars
    grind
  | .pair a d, out => by
    rw [collectPatternVarsInto, mem_collectPatternVarsInto d, mem_collectPatternVarsInto a,
      Datum.patternVars, List.mem_append]
    tauto
  | .boolean _, out | .number _, out | .character _, out | .string _, out | .null, out
  | .vector _, out | .byteVector _, out => by
    simp [collectPatternVarsInto, Datum.patternVars]

lemma IsPattern.not_special (h : IsPattern literals full u p) :
    ∀ s ∈ p.patternVars, s ≠ underscoreSym ∧ s ∉ literals := by
  induction h with
  | @ident _ t hell hund hlit =>
    intro s hs
    simp only [Datum.patternVars, if_neg hell, List.mem_singleton] at hs
    exact hs ▸ ⟨hund, hlit⟩
  | @constant _ d hpair hsym =>
    cases d <;> simp_all [Datum.isPair, Datum.isSymbol, Datum.patternVars]
  | @list _ items tail _ _ _ _ _ ihitems ihtail =>
    intro s hs
    rw [Datum.patternVars_rebuild, List.mem_append, List.mem_flatMap] at hs
    rcases hs with ⟨x, hx, hs⟩ | hs
    · exact ihitems x hx s hs
    · exact ihtail s hs
  | @ellipsis _ pre post rep tail _ _ _ _ _ _ _ _ ihpre ihrep ihpost ihtail =>
    intro s hs
    simp only [Datum.patternVars_rebuild, List.flatMap_append, List.flatMap_cons,
      Datum.patternVars, if_true, List.nil_append, List.mem_append, List.mem_flatMap] at hs
    rcases hs with (⟨x, hx, hs⟩ | hs | ⟨x, hx, hs⟩) | hs
    · exact ihpre x hx s hs
    · exact ihrep s hs
    · exact ihpost x hx s hs
    · exact ihtail s hs

lemma IsPattern.mem_collectPatternVars (h : IsPattern literals full u p) {s : Name} :
    s ∈ collectPatternVars literals p ↔ s ∈ p.patternVars := by
  rw [collectPatternVars, mem_collectPatternVarsInto]
  constructor
  · rintro (hs | hs)
    · cases hs
    · exact hs.1
  · exact fun hs => .inr ⟨hs, h.not_special s hs⟩

lemma mem_foldl_iff {s : Name} {f : Datum → List Name → List Name} {Q : Datum → Prop}
    {items : List Datum} (h : ∀ x ∈ items, ∀ out, s ∈ f x out ↔ s ∈ out ∨ Q x) {out : List Name} :
    s ∈ items.foldl (fun out x => f x out) out ↔ s ∈ out ∨ ∃ x ∈ items, Q x := by
  induction items generalizing out with
  | nil => simp
  | cons x items ih =>
    rw [List.foldl_cons, ih fun y hy => h y (List.mem_cons_of_mem x hy), h x List.mem_cons_self]
    simp [or_assoc]

lemma collectTemplateRepeatVarsInto_rebuildList (c : Bindings) (items : List Datum) :
    ∀ out, collectTemplateRepeatVarsInto c (rebuildList items) out
      = items.foldl (fun out x => collectTemplateRepeatVarsInto c x out) out := by
  induction items with
  | nil => exact fun out => rfl
  | cons x items ih =>
    intro out
    have hproper := Datum.collectProperListStrict_rebuildList (x :: items)
    rw [rebuildList, rebuildListWithTail_cons] at hproper ⊢
    rw [collectTemplateRepeatVarsInto, hproper]
    exact ih _

lemma IsPattern.mem_collectTemplateRepeatVarsInto (h : IsPattern literals False true p)
    {s : Name} : ∀ out, s ∈ collectTemplateRepeatVarsInto c p out ↔
      s ∈ out ∨ s ∈ p.patternVars ∧ (c.repeats? s).isSome := by
  generalize hu : true = u at h
  induction h with
  | @ident _ t hell =>
    intro out
    unfold collectTemplateRepeatVarsInto
    simp only [Datum.patternVars]
    grind
  | @constant _ d hpair hsym =>
    intro out
    cases d <;> simp_all [Datum.isPair, Datum.isSymbol, Datum.patternVars,
      collectTemplateRepeatVarsInto]
  | @list _ items tail _ _ _ _ hdot ihitems _ =>
    have htail : tail = .null := by
      by_contra hne
      exact hdot hne hu.symm
    subst htail
    intro out
    rw [← rebuildList, collectTemplateRepeatVarsInto_rebuildList,
      mem_foldl_iff fun x hx => ihitems x hx hu, rebuildList, Datum.patternVars_rebuild]
    simp only [Datum.patternVars]
    grind
  | ellipsis _ _ _ _ _ _ hnest => exact (hnest hu.symm).elim

end CrabScheme.Expand
