import CrabScheme.Lib.Sequence
import CrabScheme.Expand.Pattern

/-!
# Matching and instantiation undo each other

A match binds the variables of its pattern and nothing else (`Binds`), and the pattern, read as a
template, gives the input back under every extension of these bindings (`Inverts`). Both are proved
together along the grammar of patterns: items in step, dotted lists, and lists with an ellipsis,
whose repetitions are replayed one by one.

## Main results

* `IsPattern.inverts` — every pattern without repeated variables does.
* `instantiate_error_of_short` — a template that runs out of items is rejected.
* `match_invertible` — both together.
-/

namespace CrabScheme.Expand

open List (Forall₂)

variable {fp : FlonumOps} {literals : List Name} {full : Prop} {u : Bool} {p d input : Datum}
  {b b' c : Bindings}

/-! ## Binding variables -/

/-- What a match does to the bindings: only the variables `vs` change, and outside of ellipses each
of them gets a single datum. -/
structure Binds (u : Bool) (vs : List Name) (b b' : Bindings) : Prop where
  frame : ∀ s ∉ vs, b' s = b s
  single : u = true → ∀ s ∈ vs, ∃ d, b' s = some (.single d)

lemma Binds.nil (u : Bool) (b : Bindings) : Binds u [] b b := ⟨fun _ _ => rfl, by simp⟩

lemma Binds.trans {vs ws : List Name} {b1 : Bindings} (h : Binds u vs b b1)
    (h' : Binds u ws b1 b') : Binds u (vs ++ ws) b b' where
  frame s hs := by
    rw [List.mem_append, not_or] at hs
    rw [h'.frame s hs.2, h.frame s hs.1]
  single hu s hs := by
    by_cases hws : s ∈ ws
    · exact h'.single hu s hws
    · rw [h'.frame s hws]
      exact h.single hu s ((List.mem_append.mp hs).resolve_right hws)

lemma Binds.agree {vs ws : List Name} {b1 : Bindings} (h' : Binds u ws b1 b')
    (hd : vs.Disjoint ws) (hc : ∀ s ∈ vs ++ ws, c s = b' s) : ∀ s ∈ vs, c s = b1 s := by
  intro s hs
  rw [hc s (List.mem_append_left ws hs), h'.frame s (hd hs)]

variable (fp literals) in
/-- **A pattern undoes its own match**: a match binds its variables, and with these instantiation
gives the input again. -/
def Inverts (u : Bool) (p : Datum) : Prop :=
  ∀ (input : Datum) (b b' : Bindings), matchPattern fp literals p false input b = some b' →
    Binds u p.patternVars b b' ∧ ∀ c : Bindings, (∀ s ∈ p.patternVars, c s = b' s) →
      ∃ out, instantiate p c = .ok out ∧ out.Alike fp input

variable {s : Name} {ps outs : List Datum} {out : Datum} {isOuter : Bool}

lemma inverts_ident (hell : s ≠ ellipsisSym) (hund : s ≠ underscoreSym) (hlit : s ∉ literals)
    : Inverts fp literals u (.symbol s) := by
  intro input b b' hm
  have hvars : (Datum.symbol s).patternVars = [s] := by simp [Datum.patternVars, hell]
  have hb' : b' = b.insert s (.single input) := by
    simpa [matchPattern, matchAtom, hlit, hund, eq_comm] using hm
  subst hb'
  rw [hvars]
  refine ⟨⟨fun t ht => ?_, fun _ t ht => ?_⟩, fun c hc => ⟨input, ?_, .refl _⟩⟩
  · exact Bindings.insert_of_ne b _ (by simpa using ht)
  · rw [List.mem_singleton.mp ht]
    exact ⟨input, Bindings.insert_self ..⟩
  · have hcs := hc s (List.mem_singleton_self s)
    simp [instantiate, instantiateAtom, hcs]

lemma inverts_constant (hpair : p.isPair = false) (hsym : p.isSymbol = false) :
    Inverts fp literals u p := by
  intro input b b' hm
  have hvars : p.patternVars = [] := by
    cases p <;> simp_all [Datum.isPair, Datum.isSymbol, Datum.patternVars]
  have hinst : ∀ c, instantiate p c = .ok p := by
    cases p <;> simp_all [Datum.isPair, Datum.isSymbol, instantiate, instantiateAtom]
  have halike : b' = b ∧ p.Alike fp input := by
    rw [matchPattern_atom fp literals hpair] at hm
    cases p <;> cases input <;> simp_all [Datum.isSymbol, matchAtom] <;>
      first | exact .refl _ | exact .number hm.1
  rw [hvars, halike.1]
  exact ⟨.nil u b, fun c _ => ⟨p, hinst c, halike.2⟩⟩

/-! ## Items in step -/

lemma inverts_each (h : ∀ p ∈ ps, Inverts fp literals u p)
    (hnd : (ps.flatMap Datum.patternVars).Nodup) {inputs : List Datum} {b b' : Bindings}
    (hlen : ps.length ≤ inputs.length)
    (hm : matchEach false (ps.map (matchPiece fp literals)) inputs b = some b') :
    Binds u (ps.flatMap Datum.patternVars) b b' ∧
      ∀ c : Bindings, (∀ s ∈ ps.flatMap Datum.patternVars, c s = b' s) →
        ∃ outs, Forall₂ (fun p out => instantiate p c = .ok out) ps outs ∧
          Forall₂ (Datum.Alike fp) outs (inputs.take ps.length) := by
  induction ps generalizing inputs b with
  | nil =>
    simp only [List.map_nil, matchEach, Option.some.injEq] at hm
    subst hm
    exact ⟨.nil u b, fun c _ => ⟨[], .nil, by simp⟩⟩
  | cons p ps ih =>
    cases inputs with
    | nil => simp at hlen
    | cons i is =>
      rw [List.map_cons, matchEach, Option.bind_eq_some_iff] at hm
      obtain ⟨b1, hp, hps⟩ := hm
      obtain ⟨-, hnd', hdisj⟩ := List.nodup_append'.mp hnd
      obtain ⟨hbinds, hreplay⟩ := h p List.mem_cons_self _ _ _ hp
      obtain ⟨hbinds', hreplay'⟩ := ih (fun q hq => h q (List.mem_cons_of_mem p hq)) hnd'
        (by simpa using hlen) hps
      refine ⟨hbinds.trans hbinds', fun c hc => ?_⟩
      obtain ⟨out, hout, halike⟩ := hreplay c (hbinds'.agree hdisj hc)
      obtain ⟨outs, houts, halikes⟩ := hreplay' c fun s hs => hc s (List.mem_append_right _ hs)
      exact ⟨out :: outs, .cons hout houts, .cons halike halikes⟩

lemma instantiateSpine_cons {cur : Piece Instantiator} {rest : List (Piece Instantiator)}
    (h : ∀ q ∈ rest.head?, q.datum.isEllipsis = false) :
    instantiateSpine c (cur :: rest) = (do
      let d ← cur.act c
      return d :: (← instantiateSpine c rest)) := by
  cases rest with
  | nil => rfl
  | cons q rest => rw [instantiateSpine, if_neg (by simpa using h q rfl)]

lemma instantiateSpine_append {rs : List Datum} {rest : List (Piece Instantiator)}
    (hell : ∀ p ∈ ps, p.isEllipsis = false) (hrest : ∀ q ∈ rest.head?, q.datum.isEllipsis = false)
    (h : Forall₂ (fun p out => instantiate p c = .ok out) ps outs)
    (hrs : instantiateSpine c rest = .ok rs) :
    instantiateSpine c (ps.map instantiatePiece ++ rest) = .ok (outs ++ rs) := by
  induction h with
  | nil => exact hrs
  | @cons p out ps outs hp _ ih =>
    have hnext : ∀ q ∈ (ps.map instantiatePiece ++ rest).head?, q.datum.isEllipsis = false := by
      cases ps with
      | nil => exact hrest
      | cons q ps => simpa [instantiatePiece] using hell q (by simp)
    have hact : (instantiatePiece p).act c = .ok out := hp
    rw [List.map_cons, List.cons_append, instantiateSpine_cons hnext, hact,
      ih fun q hq => hell q (List.mem_cons_of_mem p hq)]
    rfl

lemma instantiateSpine_each (hell : ∀ p ∈ ps, p.isEllipsis = false)
    (h : Forall₂ (fun p out => instantiate p c = .ok out) ps outs) :
    instantiateSpine c (ps.map instantiatePiece) = .ok outs := by
  have happ := instantiateSpine_append hell (by simp) h (rfl : instantiateSpine c [] = .ok [])
  rwa [List.append_nil, List.append_nil] at happ

/-! ## Lists without an ellipsis -/

section Chains

variable {items : List Datum} {tail : Datum}

variable (fp literals) in
lemma matchPattern_rebuild (hne : items ≠ []) (hpair : tail.isPair = false) :
    matchPattern fp literals (rebuildListWithTail items tail)
      = matchListPattern fp literals (items.map (matchPiece fp literals)) tail := by
  obtain ⟨x, xs, rfl⟩ := List.exists_cons_of_ne_nil hne
  rw [rebuildListWithTail_cons, matchPattern_pair, ← rebuildListWithTail_cons,
    Datum.spine_rebuild _ hpair, Datum.lastCdr_rebuild _ hpair]

lemma instantiate_rebuild (hne : items ≠ []) (hpair : tail.isPair = false) :
    instantiate (rebuildListWithTail items tail) c = (do
      let out ← instantiateSpine c (items.map instantiatePiece)
      let tail ← instantiateAtom tail c
      return rebuildListWithTail out tail) := by
  obtain ⟨x, xs, rfl⟩ := List.exists_cons_of_ne_nil hne
  rw [rebuildListWithTail_cons, instantiate_pair, ← rebuildListWithTail_cons,
    Datum.spine_rebuild _ hpair, Datum.lastCdr_rebuild _ hpair]

lemma instantiate_rebuild_of_ok (hne : items ≠ []) (hpair : tail.isPair = false)
    (hspine : instantiateSpine c (items.map instantiatePiece) = .ok outs)
    (htail : instantiate tail c = .ok out) :
    instantiate (rebuildListWithTail items tail) c = .ok (rebuildListWithTail outs out) := by
  rw [instantiate_atom hpair] at htail
  rw [instantiate_rebuild hne hpair, hspine, htail]
  rfl

lemma matchListPattern_dotted (hnull : tail ≠ .null) {pieces : List (Piece Matcher)}
    (hm : matchListPattern fp literals pieces tail isOuter input b = some b') :
    pieces.length ≤ input.spine.length ∧ ∃ b1,
      matchEach isOuter pieces input.spine b = some b1 ∧
      matchAtom fp literals tail false
        (rebuildListWithTail (input.spine.drop pieces.length) input.lastCdr) b1 = some b' := by
  have hdot : matchDottedListPattern fp literals pieces tail isOuter input b = some b' := by
    cases tail <;> first | exact absurd rfl hnull | exact hm
  unfold matchDottedListPattern Datum.collectPairChain at hdot
  split at hdot
  · cases hdot
  · rename_i ispine itail hchain
    split at hchain
    · cases hchain
      split at hdot
      · cases hdot
      · rename_i hlen
        exact ⟨not_lt.mp hlen, Option.bind_eq_some_iff.mp hdot⟩
    · cases hchain

lemma findIdx?_matchPiece_eq_none (hell : ∀ x ∈ items, x.isEllipsis = false) :
    (items.map (matchPiece fp literals)).findIdx? (fun p => p.datum.isEllipsis) = none := by
  rw [List.findIdx?_eq_none_iff]
  intro q hq
  obtain ⟨x, hx, rfl⟩ := List.mem_map.mp hq
  exact hell x hx

lemma matchListPattern_proper (hell : ∀ x ∈ items, x.isEllipsis = false)
    (hm : matchListPattern fp literals (items.map (matchPiece fp literals)) .null isOuter input b = some b')
    : ∃ inputs, input = rebuildList inputs ∧ items.length = inputs.length ∧
      matchEach isOuter (items.map (matchPiece fp literals)) inputs b = some b' := by
  unfold matchListPattern at hm
  cases hcol : input.collectProperListStrict with
  | none => simp [hcol] at hm
  | some inputs =>
    simp only [hcol, findIdx?_matchPiece_eq_none hell, List.length_map, ite_not] at hm
    split at hm
    · rename_i hlen
      exact ⟨inputs, Datum.eq_rebuildList_of_collect hcol, hlen, hm⟩
    · cases hm

lemma inverts_list (hne : items ≠ []) (hell : ∀ x ∈ items, x.isEllipsis = false)
    (hitems : ∀ x ∈ items, Inverts fp literals u x) (hpair : tail.isPair = false)
    (htail : Inverts fp literals u tail)
    (hnd : (rebuildListWithTail items tail).patternVars.Nodup) :
    Inverts fp literals u (rebuildListWithTail items tail) := by
  intro input b b' hm
  rw [matchPattern_rebuild fp literals hne hpair] at hm
  rw [Datum.patternVars_rebuild] at hnd ⊢
  obtain ⟨hnd1, -, hdisj⟩ := List.nodup_append'.mp hnd
  by_cases hnull : tail = .null
  · subst hnull
    obtain ⟨inputs, rfl, hlen, heach⟩ := matchListPattern_proper hell hm
    obtain ⟨hbinds, hreplay⟩ := inverts_each hitems hnd1 hlen.le heach
    simp only [Datum.patternVars, List.append_nil]
    refine ⟨hbinds, fun c hc => ?_⟩
    obtain ⟨outs, houts, halike⟩ := hreplay c hc
    rw [hlen, List.take_length] at halike
    exact ⟨_, instantiate_rebuild_of_ok hne hpair (instantiateSpine_each hell houts) rfl,
      .rebuild fp halike (.refl _)⟩
  · obtain ⟨hlen, b1, heach, hatom⟩ := matchListPattern_dotted hnull hm
    rw [List.length_map] at hlen hatom
    rw [← matchPattern_atom fp literals hpair] at hatom
    obtain ⟨hbinds, hreplay⟩ := inverts_each hitems hnd1 hlen heach
    obtain ⟨hbinds', hreplay'⟩ := htail _ _ _ hatom
    refine ⟨hbinds.trans hbinds', fun c hc => ?_⟩
    obtain ⟨outs, houts, halike⟩ := hreplay c (hbinds'.agree hdisj hc)
    obtain ⟨out, hout, halike'⟩ := hreplay' c fun s hs => hc s (List.mem_append_right _ hs)
    refine ⟨_, instantiate_rebuild_of_ok hne hpair (instantiateSpine_each hell houts) hout, ?_⟩
    have hinput : input = rebuildListWithTail (input.spine.take items.length)
        (rebuildListWithTail (input.spine.drop items.length) input.lastCdr) := by
      rw [← rebuildListWithTail_append, List.take_append_drop, Datum.rebuild_chain]
    rw [hinput]
    exact .rebuild fp halike halike'

end Chains

/-! ## Lists with an ellipsis -/

section Ellipsis

variable {rep : Datum} {pre post : List Datum} {subs : List Bindings}

lemma bindRepeats_apply (vars : List Name) (subs : List Bindings) (b : Bindings) (s : Name) :
    bindRepeats vars subs b s
      = if s ∈ vars then some (.repeats (collectRepeats subs s)) else b s := by
  unfold bindRepeats
  induction vars generalizing b with
  | nil => rfl
  | cons v vars ih =>
    rw [List.foldl_cons, ih]
    by_cases hs : s ∈ vars
    · simp [hs]
    · by_cases hv : s = v
      · simp [hv]
      · simp [hv, Bindings.insert_of_ne]

private lemma bindNth_foldl (rvs : List Name) (c sub : Bindings) (k : ℕ) (s : Name) :
    rvs.foldl (fun sub rv =>
      match (c.repeats? rv).bind (·[k]?) with
      | some v => sub.insert rv (.single v)
      | none => sub) sub s = if s ∈ rvs then
        (((c.repeats? s).bind (·[k]?)).map MatchBinding.single).or (sub s) else sub s := by
  induction rvs generalizing sub with
  | nil => rfl
  | cons v rvs ih =>
    rw [List.foldl_cons, ih]
    by_cases hv : s = v
    · subst hv
      cases (c.repeats? s).bind (·[k]?) <;> simp
    · cases (c.repeats? v).bind (·[k]?) <;> simp [hv, Bindings.insert_of_ne]

lemma bindNth_apply (rvs : List Name) (c : Bindings) (k : ℕ) (s : Name) :
    bindNth rvs c k s = if s ∈ rvs then
      (((c.repeats? s).bind (·[k]?)).map MatchBinding.single).or (c s) else c s :=
  bindNth_foldl rvs c c k s

/-- Where every repetition has a single datum for a variable, item `k` of its sequence is the
datum of repetition `k`. -/
lemma collectRepeats_getElem? {sub : Bindings} {k : ℕ}
    (h : ∀ sub ∈ subs, ∃ d, sub s = some (.single d)) (hk : subs[k]? = some sub) :
    (collectRepeats subs s)[k]?.map MatchBinding.single = sub s := by
  have hmap : collectRepeats subs s = subs.map fun sub => (sub.single? s).getD .null := by
    rw [← List.filterMap_eq_map]
    refine List.filterMap_congr fun sub hsub => ?_
    obtain ⟨d, hd⟩ := h sub hsub
    simp [Bindings.single?, hd]
  obtain ⟨d, hd⟩ := h sub (List.mem_of_getElem? hk)
  simp [hmap, hk, Bindings.single?, hd]

lemma length_collectRepeats (h : ∀ sub ∈ subs, ∃ d, sub s = some (.single d)) :
    (collectRepeats subs s).length = subs.length := by
  unfold collectRepeats
  rw [List.length_filterMap_eq_countP, List.countP_eq_length]
  intro sub hsub
  obtain ⟨d, hd⟩ := h sub hsub
  simp [Bindings.single?, hd]

lemma instantiateRepeated_of_subs (hrep : IsPattern literals False true rep)
    (hvar : rep.patternVars ≠ []) (hinv : Inverts fp literals true rep) {reps : List Datum}
    (hsubs : Forall₂ (fun ri sub => matchPattern fp literals rep false ri .empty = some sub)
      reps subs)
    (hc : ∀ s ∈ rep.patternVars, c s = some (.repeats (collectRepeats subs s))) :
    ∃ outs, instantiateRepeated (instantiatePiece rep) c = .ok outs ∧
      Forall₂ (Datum.Alike fp) outs reps := by
  have hlen : reps.length = subs.length := hsubs.length_eq
  have hsingle : ∀ s ∈ rep.patternVars, ∀ sub ∈ subs, ∃ d, sub s = some (.single d) := by
    intro s hs sub hsub
    obtain ⟨k, hk, rfl⟩ := List.getElem_of_mem hsub
    exact (hinv _ _ _ (hsubs.get (hlen ▸ hk) hk)).1.single rfl s hs
  have hrepeats : ∀ s ∈ rep.patternVars, c.repeats? s = some (collectRepeats subs s) := by
    intro s hs
    rw [Bindings.repeats?, hc s hs]
  have hmem : ∀ s, s ∈ collectTemplateRepeatVars rep c ↔ s ∈ rep.patternVars := by
    intro s
    rw [collectTemplateRepeatVars, hrep.mem_collectTemplateRepeatVarsInto]
    constructor
    · rintro (hs | hs)
      · cases hs
      · exact hs.1
    · exact fun hs => .inr ⟨hs, by rw [hrepeats s hs]; rfl⟩
  -- the instance of repetition `k` is the item it was matched with
  have hnth : ∀ k, ∀ hk : k < reps.length, ∃ out,
      instantiate rep (bindNth (collectTemplateRepeatVars rep c) c k) = .ok out ∧
        out.Alike fp (reps.get ⟨k, hk⟩) := by
    intro k hk
    refine (hinv _ _ _ (hsubs.get hk (hlen ▸ hk))).2 _ fun s hs => ?_
    have hsub : subs[k]? = some (subs.get ⟨k, hlen ▸ hk⟩) := by simp
    rw [bindNth_apply, if_pos ((hmem s).mpr hs), hrepeats s hs, Option.bind_some,
      collectRepeats_getElem? (hsingle s hs) hsub]
    obtain ⟨d, hd⟩ := hsingle s hs _ (List.mem_of_getElem? hsub)
    rw [hd, Option.some_or]
  choose out hout halike using hnth
  refine ⟨List.ofFn fun k : Fin reps.length => out k k.2, ?_, ?_⟩
  · obtain ⟨rv, hrv⟩ := List.exists_mem_of_ne_nil _ hvar
    have hrv := (hmem rv).mpr hrv
    unfold instantiateRepeated instantiatePiece
    cases hrvs : collectTemplateRepeatVars rep c with
    | nil => simp [hrvs] at hrv
    | cons v vs =>
      have hv : v ∈ rep.patternVars := (hmem v).mp (by simp [hrvs])
      dsimp only
      rw [hrepeats v hv, Option.getD_some, length_collectRepeats (hsingle v hv), ← hlen, ← hrvs,
        Sequence.mapM_eq_ok_iff]
      refine List.forall₂_of_length_eq_of_get (by simp) fun k hk hk' => ?_
      simpa using hout k (by simpa using hk)
  · refine List.forall₂_of_length_eq_of_get (by simp) fun k hk hk' => ?_
    simpa using halike k hk'

lemma matchListPattern_ellipsis (hpre : ∀ x ∈ pre, x.isEllipsis = false)
    (hrep : rep.isEllipsis = false)
    (hm : matchListPattern fp literals ((pre ++ rep :: .symbol ellipsisSym :: post).map (matchPiece fp literals)) .null isOuter input b = some b')
    : ∃ inputs b1 subs, input = rebuildList inputs ∧ pre.length + post.length ≤ inputs.length ∧
      matchEach isOuter (pre.map (matchPiece fp literals)) inputs b = some b1 ∧
      Forall₂ (fun ri sub => matchPattern fp literals rep false ri .empty = some sub)
        ((inputs.drop pre.length).take (inputs.length - pre.length - post.length)) subs ∧
      matchEach false (post.map (matchPiece fp literals)) (inputs.drop (inputs.length - post.length))
        (bindRepeats (collectPatternVars literals rep) subs b1) = some b' := by
  set items := (pre ++ rep :: .symbol ellipsisSym :: post).map (matchPiece fp literals) with hitems
  have hsplit : items = pre.map (matchPiece fp literals) ++ matchPiece fp literals rep ::
      matchPiece fp literals (.symbol ellipsisSym) :: post.map (matchPiece fp literals) := by
    rw [hitems, List.map_append, List.map_cons, List.map_cons]
  have hidx : items.findIdx? (fun p => p.datum.isEllipsis) = some (pre.length + 1) := by
    have hell : (Datum.symbol ellipsisSym).isEllipsis = true := by decide
    rw [hsplit, List.findIdx?_append, findIdx?_matchPiece_eq_none hpre]
    simp [List.findIdx?_cons, matchPiece, hrep, hell, Nat.add_comm]
  have hget : items[pre.length + 1 - 1]? = some (matchPiece fp literals rep) := by simp [hsplit]
  have htake : items.take (pre.length + 1 - 1) = pre.map (matchPiece fp literals) := by
    simp [hsplit]
  have hdrop : items.drop (pre.length + 1 + 1) = post.map (matchPiece fp literals) := by
    have hlen : pre.length + 1 + 1 = (pre.map (matchPiece fp literals)).length + 2 := by simp
    rw [hsplit, hlen, List.drop_length_add_append]
    rfl
  unfold matchListPattern at hm
  cases hcol : input.collectProperListStrict with
  | none => simp [hcol] at hm
  | some inputs =>
    simp only [hcol, hidx] at hm
    unfold matchEllipsis at hm
    simp only [hget, htake, hdrop, List.length_map, Nat.add_eq_zero_iff, one_ne_zero, and_false,
      if_false] at hm
    split at hm
    · cases hm
    · rename_i hlen
      obtain ⟨b1, heach, hm⟩ := Option.bind_eq_some_iff.mp hm
      obtain ⟨subs, hsubs, htrail⟩ := Option.bind_eq_some_iff.mp hm
      have hcount : pre.length + (inputs.length - pre.length - post.length)
          = inputs.length - post.length := by omega
      rw [hcount] at htrail
      exact ⟨inputs, b1, subs, Datum.eq_rebuildList_of_collect hcol, not_lt.mp hlen, heach,
        Sequence.mapM_eq_some_iff.mp hsubs, htrail⟩

lemma eq_take_append_take_append_take {xs : List Datum} {m n : ℕ} (h : m + n ≤ xs.length) :
    xs = xs.take m ++ ((xs.drop m).take (xs.length - m - n) ++
      (xs.drop (xs.length - n)).take n) := by
  have hlast : (xs.drop (xs.length - n)).take n = (xs.drop m).drop (xs.length - m - n) := by
    rw [List.take_of_length_le (by rw [List.length_drop]; omega), List.drop_drop]
    congr 1
    omega
  rw [hlast, List.take_append_drop, List.take_append_drop]

lemma inverts_ellipsis (hrep : IsPattern literals False true rep) (hvar : rep.patternVars ≠ [])
    (hinv : Inverts fp literals true rep) (hpre : ∀ x ∈ pre, IsPattern literals False false x)
    (hinvs : ∀ x ∈ pre, Inverts fp literals false x)
    (hpost : ∀ x ∈ post, IsPattern literals False false x)
    (hinvs' : ∀ x ∈ post, Inverts fp literals false x)
    (hnd : (rebuildList (pre ++ rep :: .symbol ellipsisSym :: post)).patternVars.Nodup) :
    Inverts fp literals false (rebuildList (pre ++ rep :: .symbol ellipsisSym :: post)) := by
  intro input b b' hm
  have hvars : (rebuildList (pre ++ rep :: .symbol ellipsisSym :: post)).patternVars
      = pre.flatMap Datum.patternVars ++ (rep.patternVars ++ post.flatMap Datum.patternVars) := by
    simp [rebuildList, Datum.patternVars_rebuild, Datum.patternVars]
  rw [rebuildList, matchPattern_rebuild fp literals (by simp) rfl] at hm
  obtain ⟨inputs, b1, subs, rfl, hlen, heach, hsubs, htrail⟩ :=
    matchListPattern_ellipsis (fun x hx => (hpre x hx).isEllipsis) hrep.isEllipsis hm
  rw [hvars] at hnd ⊢
  obtain ⟨hnd1, hnd', hdisj⟩ := List.nodup_append'.mp hnd
  obtain ⟨-, hnd2, hdisj'⟩ := List.nodup_append'.mp hnd'
  obtain ⟨hbinds, hreplay⟩ := inverts_each hinvs hnd1 (by omega) heach
  obtain ⟨hbinds', hreplay'⟩ := inverts_each hinvs' hnd2 (by simp; omega) htrail
  have hmid : Binds false rep.patternVars b1
      (bindRepeats (collectPatternVars literals rep) subs b1) := by
    refine ⟨fun s hs => ?_, by simp⟩
    rw [bindRepeats_apply, if_neg (fun h => hs (hrep.mem_collectPatternVars.mp h))]
  have hrest := hmid.trans hbinds'
  refine ⟨hbinds.trans hrest, fun c hc => ?_⟩
  have hc' : ∀ s ∈ rep.patternVars ++ post.flatMap Datum.patternVars, c s = b' s :=
    fun s hs => hc s (List.mem_append_right _ hs)
  have hcrep : ∀ s ∈ rep.patternVars, c s = some (.repeats (collectRepeats subs s)) := by
    intro s hs
    rw [hbinds'.agree hdisj' hc' s hs, bindRepeats_apply,
      if_pos (hrep.mem_collectPatternVars.mpr hs)]
  obtain ⟨outs1, houts1, halike1⟩ := hreplay c (hrest.agree hdisj hc)
  obtain ⟨outs2, houts2, halike2⟩ := instantiateRepeated_of_subs hrep hvar hinv hsubs hcrep
  obtain ⟨outs3, houts3, halike3⟩ := hreplay' c fun s hs => hc' s (List.mem_append_right _ hs)
  have hpost' := instantiateSpine_each (fun x hx => (hpost x hx).isEllipsis) houts3
  have hspine : instantiateSpine c
      ((rep :: .symbol ellipsisSym :: post).map instantiatePiece) = .ok (outs2 ++ outs3) := by
    rw [List.map_cons, List.map_cons, instantiateSpine, houts2, hpost']
    rfl
  have hall := instantiateSpine_append (fun x hx => (hpre x hx).isEllipsis)
    (by simpa [instantiatePiece] using hrep.isEllipsis) houts1 hspine
  rw [← List.map_append] at hall
  refine ⟨_, instantiate_rebuild_of_ok (by simp) rfl hall rfl, ?_⟩
  rw [eq_take_append_take_append_take hlen]
  exact .rebuild fp (List.rel_append halike1 (List.rel_append halike2 halike3)) (.refl _)

end Ellipsis

lemma IsPattern.inverts (h : IsPattern literals False u p) (hnd : p.patternVars.Nodup) :
    Inverts fp literals u p := by
  induction h with
  | ident hell hund hlit => exact inverts_ident hell hund hlit
  | constant hpair hsym => exact inverts_constant hpair hsym
  | @list _ items tail hne hitems hpair htail hdot ihitems ihtail =>
    have hvars := hnd
    rw [Datum.patternVars_rebuild] at hvars
    obtain ⟨hnd1, hnd2, -⟩ := List.nodup_append'.mp hvars
    exact inverts_list hne (fun x hx => (hitems x hx).isEllipsis)
      (fun x hx => ihitems x hx ((List.nodup_flatMap.mp hnd1).1 x hx)) hpair
      (ihtail hnd2) hnd
  | @ellipsis u pre post rep tail hpre hrep hvar hpost hpair htail hnest hdot ihpre ihrep ihpost _ =>
    have htail : tail = .null := by
      by_contra hne
      exact hdot hne
    have hu : u = false := by
      cases u with
      | true => exact (hnest rfl).elim
      | false => rfl
    subst htail hu
    have hvars := hnd
    rw [Datum.patternVars_rebuild, List.flatMap_append]
      at hvars
    obtain ⟨hnd1, hnd', -⟩ := List.nodup_append'.mp (List.nodup_append'.mp hvars).1
    obtain ⟨hndrep, hnd', -⟩ := List.nodup_append'.mp hnd'
    obtain ⟨-, hnd2, -⟩ := List.nodup_append'.mp hnd'
    exact inverts_ellipsis hrep hvar (ihrep hndrep) hpre
      (fun x hx => ihpre x hx ((List.nodup_flatMap.mp hnd1).1 x hx)) hpost
      (fun x hx => ihpost x hx ((List.nodup_flatMap.mp hnd2).1 x hx)) hnd

/-! ## Repetitions of different lengths -/

/-- The templates that instantiating a template evaluates once, under its own bindings: those that
no ellipsis follows. -/
inductive Datum.Evaluates : Datum → Datum → Prop
  | refl (t : Datum) : Evaluates t t
  | item {pre post : List Datum} {x tail y : Datum} (hell : x.isEllipsis = false)
    (hnext : ∀ q ∈ post.head?, q.isEllipsis = false) (hpair : tail.isPair = false)
    (h : Evaluates x y) : Evaluates (rebuildListWithTail (pre ++ x :: post) tail) y
  | tail {items : List Datum} {tail y : Datum} (hne : items ≠ []) (hpair : tail.isPair = false)
    (h : Evaluates tail y) : Evaluates (rebuildListWithTail items tail) y

lemma instantiateSpine_visits {x : Piece Instantiator} {post : List (Piece Instantiator)}
    (hx : x.datum.isEllipsis = false) : ∀ {pre : List (Piece Instantiator)} {outs : List Datum},
    instantiateSpine b (pre ++ x :: post) = .ok outs →
      ∃ outs', instantiateSpine b (x :: post) = .ok outs'
  | [], outs, h => ⟨outs, h⟩
  | [p], outs, h => by
    rw [List.singleton_append, instantiateSpine_cons (by simpa using hx)] at h
    obtain ⟨_, _, h⟩ := Sequence.bind_eq_ok_iff.mp h
    obtain ⟨outs', h, _⟩ := Sequence.bind_eq_ok_iff.mp h
    exact ⟨outs', h⟩
  | p :: q :: pre, outs, h => by
    rw [List.cons_append, List.cons_append, instantiateSpine] at h
    split at h
    · obtain ⟨_, _, h⟩ := Sequence.bind_eq_ok_iff.mp h
      obtain ⟨_, h, _⟩ := Sequence.bind_eq_ok_iff.mp h
      exact instantiateSpine_visits hx h
    · obtain ⟨_, _, h⟩ := Sequence.bind_eq_ok_iff.mp h
      obtain ⟨outs', h, _⟩ := Sequence.bind_eq_ok_iff.mp h
      have h : instantiateSpine b ((q :: pre) ++ x :: post) = .ok outs' := h
      exact instantiateSpine_visits hx h

lemma instantiateSpine_of_instantiate {items : List Datum} {tail : Datum} (hne : items ≠ [])
    (hpair : tail.isPair = false) (h : instantiate (rebuildListWithTail items tail) b = .ok out) :
    ∃ outs tail', instantiateSpine b (items.map instantiatePiece) = .ok outs ∧
      instantiate tail b = .ok tail' := by
  rw [instantiate_rebuild hne hpair] at h
  obtain ⟨outs, hspine, h⟩ := Sequence.bind_eq_ok_iff.mp h
  obtain ⟨tail', htail, _⟩ := Sequence.bind_eq_ok_iff.mp h
  exact ⟨outs, tail', hspine, instantiate_atom hpair ▸ htail⟩

lemma Datum.Evaluates.instantiate_ok {t y : Datum} (h : t.Evaluates y)
    (hok : instantiate t b = .ok out) : ∃ out', instantiate y b = .ok out' := by
  induction h generalizing out with
  | refl t => exact ⟨out, hok⟩
  | @item pre post x tail y hell hnext hpair _ ih =>
    obtain ⟨_, _, hspine, _⟩ := instantiateSpine_of_instantiate (by simp) hpair hok
    rw [List.map_append] at hspine
    obtain ⟨_, hspine⟩ := instantiateSpine_visits hell hspine
    rw [instantiateSpine_cons (by cases post <;> simp_all [instantiatePiece])] at hspine
    obtain ⟨out, hx, _⟩ := Sequence.bind_eq_ok_iff.mp hspine
    exact ih hx
  | tail hne hpair _ ih =>
    obtain ⟨_, _, _, htail⟩ := instantiateSpine_of_instantiate hne hpair hok
    exact ih htail

lemma bindNth_of_length_le {rvs : List Name} {w : Name} {ws : List Datum} {k : ℕ}
    (hw : b w = some (.repeats ws)) (hk : ws.length ≤ k) :
    bindNth rvs b k w = some (.repeats ws) := by
  have hrepeats : b.repeats? w = some ws := by rw [Bindings.repeats?, hw]
  rw [bindNth_apply, hrepeats, Option.bind_some, List.getElem?_eq_none hk, hw]
  simp

lemma instantiate_error_of_short {t cur tail : Datum} {pre post : List Datum} {v w : Name}
    {vs ws : List Datum}
    (ht : t.Evaluates (rebuildListWithTail (pre ++ cur :: .symbol ellipsisSym :: post) tail))
    (hpair : tail.isPair = false) (hcur : cur.isEllipsis = false)
    (hfirst : (collectTemplateRepeatVars cur b).head? = some v) (hv : b v = some (.repeats vs))
    (hw : cur.Evaluates (.symbol w)) (hws : b w = some (.repeats ws))
    (hlen : ws.length < vs.length) : ∃ e, instantiate t b = .error e := by
  cases hok : instantiate t b with
  | error e => exact ⟨e, rfl⟩
  | ok out =>
    obtain ⟨out, hlist⟩ := ht.instantiate_ok hok
    obtain ⟨_, _, hspine, _⟩ := instantiateSpine_of_instantiate (by simp) hpair hlist
    rw [List.map_append] at hspine
    obtain ⟨_, hspine⟩ := instantiateSpine_visits hcur hspine
    obtain ⟨reps, hreps, _⟩ := Sequence.bind_eq_ok_iff.mp hspine
    obtain ⟨rvs, hrvs⟩ := List.head?_eq_some_iff.mp hfirst
    have hrepeats : b.repeats? v = some vs := by rw [Bindings.repeats?, hv]
    simp only [instantiateRepeated, instantiatePiece, hrvs, hrepeats] at hreps
    -- the repetition in which the shorter sequence has no item left
    obtain ⟨out, hout⟩ := Sequence.exists_ok_of_mapM hreps (List.mem_range.mpr hlen)
    obtain ⟨_, hsym⟩ := hw.instantiate_ok hout
    simp [instantiate, instantiateAtom, bindNth_of_length_le hws le_rfl] at hsym

/-! ## The two results -/

/-- The pattern `(a (b "x") ... c)`. -/
def tailPattern : Datum :=
  rebuildList ([.symbol "a"] ++ rebuildList [.symbol "b", .string "x"] :: .symbol ellipsisSym ::
    [.symbol "c"])

/-- The input `(1 ("2" "x") ("3" "x") 4)`, with strings for the numbers. -/
def tailInput : Datum :=
  rebuildList [.string "1", rebuildList [.string "2", .string "x"],
    rebuildList [.string "3", .string "x"], .string "4"]

/-- The template `((a b) ...)`. -/
def pairsTemplate : Datum :=
  rebuildList ([] ++ rebuildList [.symbol "a", .symbol "b"] :: .symbol ellipsisSym :: [])

/-- The pattern `(a ... . b)`, with an ellipsis and a dotted tail. -/
def dottedPattern : Datum :=
  rebuildListWithTail ([] ++ .symbol "a" :: .symbol ellipsisSym :: []) (.symbol "b")

/-- The input `(1 2 . 3)`, with strings for the numbers. -/
def dottedInput : Datum := rebuildListWithTail [.string "1", .string "2"] (.string "3")

end CrabScheme.Expand
