import CrabScheme.Expand.Datum

/-!
# Matching and instantiation of `syntax-rules`

The matcher and the template instantiator of `cs-expand`. Both walk the chain of a list with the
results of the recursive calls at hand: a `Piece` is an item of the chain with what the recursion
computes from it. A failed match is `none`; the bindings it leaves behind are never looked at.

## Main results

* `matchPattern_pair`, `instantiate_pair` — a list is matched
  and instantiated through the items of its chain, as the source's loops do.
-/

namespace CrabScheme.Expand

/-- The symbol `...`. -/
def ellipsisSym : Name := "..."

/-- The symbol `_`. -/
def underscoreSym : Name := "_"

/-- Whether a datum is the symbol `...`. -/
def Datum.isEllipsis : Datum → Bool
  | .symbol s => s == ellipsisSym
  | _ => false

/-- An expansion error, with its text. -/
inductive ExpandError
  | badSyntax (what : String)
deriving DecidableEq

/-! ## Bindings -/

/-- **What a pattern variable is bound to.** -/
inductive MatchBinding
  | single (d : Datum)
  | repeats (ds : List Datum)
  | absent

/-- The bindings of a match. -/
abbrev Bindings := Name → Option MatchBinding

namespace Bindings

/-- No bindings. -/
def empty : Bindings := fun _ => none

/-- One binding more. -/
def insert (b : Bindings) (s : Name) (v : MatchBinding) : Bindings := Function.update b s (some v)

@[simp] lemma insert_self (b : Bindings) (s : Name) (v : MatchBinding) : b.insert s v s = some v :=
  Function.update_self ..

lemma insert_of_ne (b : Bindings) {s t : Name} (v : MatchBinding) (h : t ≠ s) :
    b.insert s v t = b t :=
  Function.update_of_ne h ..

/-- The single datum a variable is bound to. -/
def single? (b : Bindings) (s : Name) : Option Datum :=
  match b s with
  | some (.single d) => some d
  | _ => none

/-- The sequence a variable is bound to. -/
def repeats? (b : Bindings) (s : Name) : Option (List Datum) :=
  match b s with
  | some (.repeats ds) => some ds
  | _ => none

end Bindings

/-- A datum with what a recursion over it computes. -/
structure Piece (α : Type) where
  datum : Datum
  act : α

/-! ## Matching -/

/-- A matcher: whether the place is the outer macro name, the input and the bindings so far. -/
abbrev Matcher := Bool → Datum → Bindings → Option Bindings

variable (fp : FlonumOps) (literals : List Name)

/-- `Number::is_exact`. -/
def isExact : Number → Bool
  | .flonum _ => false
  | _ => true

/-- `eqv` on numbers, which `equal` falls back to: the exactness and the value agree. -/
def eqvNumber (m n : Number) : Bool := isExact m == isExact n && m.eqValue fp n

/-- The arms of `match_pattern` for patterns that are not pairs. -/
def matchAtom (pattern : Datum) : Matcher := fun isOuter input b =>
  match pattern, input with
  | .symbol s, _ =>
    -- the slot of the macro keyword matches anything
    if isOuter then some b
    else if s ∈ literals then
      match input with
      | .symbol t => if s = t then some b else none
      | _ => none
    else if s = underscoreSym then some b
    else some (b.insert s (.single input))
  | .boolean p, .boolean i => if p = i then some b else none
  | .number m, .number n => if eqvNumber fp m n then some b else none
  | .character p, .character i => if p = i then some b else none
  | .string p, .string i => if p = i then some b else none
  | .null, .null => some b
  | _, _ => none

/-- A loop over patterns and inputs in step; only the first pattern can be the outer one. -/
def matchEach (isOuter : Bool) : List (Piece Matcher) → List Datum → Bindings → Option Bindings
  | p :: ps, i :: is, b => (p.act isOuter i b).bind (matchEach false ps is)
  | _, _, b => some b

/-- `collect_pattern_vars_into`. -/
def collectPatternVarsInto : Datum → List Name → List Name
  | .symbol s, out =>
    if s = ellipsisSym ∨ s = underscoreSym ∨ s ∈ literals then out
    else if s ∈ out then out else out ++ [s]
  | .pair a d, out => collectPatternVarsInto d (collectPatternVarsInto a out)
  | _, out => out

/-- `collect_pattern_vars`: the variables of a pattern, each once. -/
def collectPatternVars (pattern : Datum) : List Name := collectPatternVarsInto literals pattern []

/-- What the repetitions bound a variable to: the single data, in order. -/
def collectRepeats (subs : List Bindings) (rv : Name) : List Datum :=
  subs.filterMap fun sub => sub.single? rv

/-- The bindings of the repeating section: each of its variables gets its sequence. -/
def bindRepeats (vars : List Name) (subs : List Bindings) (b : Bindings) : Bindings :=
  vars.foldl (fun b rv => b.insert rv (.repeats (collectRepeats subs rv))) b

/-- `match_dotted_list_pattern`: the spine in step, the tail against what is left of the input. -/
def matchDottedListPattern (items : List (Piece Matcher)) (ptail : Datum) : Matcher :=
  fun isOuter input b =>
    match input.collectPairChain with
    | none => none
    | some (ispine, itail) =>
      if ispine.length < items.length then none
      else
        (matchEach isOuter items ispine b).bind
          (matchAtom fp literals ptail false
            (rebuildListWithTail (ispine.drop items.length) itail))

/-- The branch of `match_list_pattern` for a proper list whose item `eidx` is the ellipsis. -/
def matchEllipsis (items : List (Piece Matcher)) (eidx : ℕ) (isOuter : Bool)
    (inputs : List Datum) (b : Bindings) : Option Bindings :=
  if eidx = 0 then none
  else
    match items[eidx - 1]? with
    | none => none
    | some repeatPattern =>
      let fixed := items.take (eidx - 1)
      let trailing := items.drop (eidx + 1)
      if inputs.length < fixed.length + trailing.length then none
      else
        (matchEach isOuter fixed inputs b).bind fun b =>
          let repeatCount := inputs.length - fixed.length - trailing.length
          let repeatInputs := (inputs.drop fixed.length).take repeatCount
          -- every repetition is matched with bindings of its own
          (repeatInputs.mapM fun ri => repeatPattern.act false ri Bindings.empty).bind fun subs =>
            matchEach false trailing (inputs.drop (fixed.length + repeatCount))
              (bindRepeats (collectPatternVars literals repeatPattern.datum) subs b)

/-- `match_list_pattern`: dotted patterns, proper lists with an ellipsis, and proper lists without
one, which must have the length of the input. -/
def matchListPattern (items : List (Piece Matcher)) (ptail : Datum) : Matcher :=
  fun isOuter input b =>
    match ptail with
    | .null =>
      match input.collectProperListStrict with
      | none => none
      | some inputs =>
        match items.findIdx? fun p => p.datum.isEllipsis with
        | some eidx => matchEllipsis literals items eidx isOuter inputs b
        | none => if items.length ≠ inputs.length then none else matchEach isOuter items inputs b
    | ptail => matchDottedListPattern fp literals items ptail isOuter input b

mutual

/-- **`match_pattern`**: matching an input against a pattern. -/
def matchPattern : Datum → Matcher
  | .pair a d =>
    matchListPattern fp literals (⟨a, matchPattern a⟩ :: matchPieces d) d.lastCdr
  | pattern => matchAtom fp literals pattern

/-- The items of a chain with their matchers. -/
def matchPieces : Datum → List (Piece Matcher)
  | .pair a d => ⟨a, matchPattern a⟩ :: matchPieces d
  | _ => []

end

/-- An item of a pattern with its matcher. -/
def matchPiece (p : Datum) : Piece Matcher := ⟨p, matchPattern fp literals p⟩

lemma matchPieces_eq : ∀ d : Datum,
    matchPieces fp literals d = d.spine.map (matchPiece fp literals)
  | .pair a d => by rw [matchPieces, matchPieces_eq d]; rfl
  | .boolean _ | .number _ | .character _ | .string _ | .symbol _ | .null | .vector _
  | .byteVector _ => rfl

lemma matchPattern_pair (a d : Datum) :
    matchPattern fp literals (.pair a d) = matchListPattern fp literals
      ((Datum.pair a d).spine.map (matchPiece fp literals)) (Datum.pair a d).lastCdr := by
  rw [matchPattern, matchPieces_eq]
  rfl

lemma matchPattern_atom {p : Datum} (h : p.isPair = false) :
    matchPattern fp literals p = matchAtom fp literals p := by
  cases p <;> first | rfl | cases h

/-! ## Instantiation -/

/-- The character `U+E000` in front of the name of a symbol that a template introduced. -/
def templateMarker : Char := Char.ofNat 0xE000

/-- `is_template_marked`. -/
def isTemplateMarked (s : Name) : Bool := s.toList.head? == some templateMarker

/-- `mark_template_symbol`. -/
def markTemplateSymbol (s : Name) : Name :=
  if isTemplateMarked s then s else String.ofList (templateMarker :: s.toList)

/-- An instantiator: the bindings to the datum, or an error. -/
abbrev Instantiator := Bindings → Except ExpandError Datum

/-- `collect_template_repeat_vars_into`: the variables bound to sequences; improper lists are not
entered. -/
def collectTemplateRepeatVarsInto (b : Bindings) : Datum → List Name → List Name
  | .symbol s, out =>
    if (b.repeats? s).isSome then if s ∈ out then out else out ++ [s] else out
  | .pair a d, out =>
    if (Datum.pair a d).collectProperListStrict.isSome then
      collectTemplateRepeatVarsInto b d (collectTemplateRepeatVarsInto b a out)
    else out
  | _, out => out

/-- `collect_template_repeat_vars`. -/
def collectTemplateRepeatVars (template : Datum) (b : Bindings) : List Name :=
  collectTemplateRepeatVarsInto b template []

/-- The bindings of repetition `k`: each repeated variable that has an item there is bound to it. -/
def bindNth (repeatVars : List Name) (b : Bindings) (k : ℕ) : Bindings :=
  repeatVars.foldl (fun sub rv =>
    match (b.repeats? rv).bind (·[k]?) with
    | some v => sub.insert rv (.single v)
    | none => sub) b

/-- The symbol arm of `instantiate`, and the data that stand for themselves. -/
def instantiateAtom (template : Datum) : Instantiator := fun b =>
  match template with
  | .symbol s =>
    match b s with
    | some (.single d) => .ok d
    | some (.repeats _) => .error (.badSyntax "ellipsis variable used outside ellipsis context")
    | some .absent =>
      .error (.badSyntax ("pattern variable `" ++ s ++ "` is absent here (its ~optional/~or "
        ++ "alternative did not match); supply #:defaults or guard its use"))
    | none => .ok (.symbol (markTemplateSymbol s))
  | template => .ok template

/-- An item followed by an ellipsis: as many instances as its first repeated variable has items. -/
def instantiateRepeated (cur : Piece Instantiator) (b : Bindings) :
    Except ExpandError (List Datum) :=
  match collectTemplateRepeatVars cur.datum b with
  | [] => .error (.badSyntax "ellipsis without ellipsis variable")
  | rv :: rvs =>
    let n := ((b.repeats? rv).getD []).length
    (List.range n).mapM fun k => cur.act (bindNth (rv :: rvs) b k)

/-- The loop of `instantiate` over the spine of a template. -/
def instantiateSpine (b : Bindings) :
    List (Piece Instantiator) → Except ExpandError (List Datum)
  | [] => .ok []
  | [cur] => do return [← cur.act b]
  | cur :: next :: rest =>
    if next.datum.isEllipsis then do
      let reps ← instantiateRepeated cur b
      return reps ++ (← instantiateSpine b rest)
    else do
      let d ← cur.act b
      return d :: (← instantiateSpine b (next :: rest))

mutual

/-- **`instantiate`**: a template under the bindings of a match. -/
def instantiate : Datum → Instantiator
  | .pair a d => fun b => do
    let out ← instantiateSpine b (⟨a, instantiate a⟩ :: instantiatePieces d)
    let tail ← instantiateAtom d.lastCdr b
    return rebuildListWithTail out tail
  | template => instantiateAtom template

/-- The items of a chain with their instantiators. -/
def instantiatePieces : Datum → List (Piece Instantiator)
  | .pair a d => ⟨a, instantiate a⟩ :: instantiatePieces d
  | _ => []

end

/-- An item of a template with its instantiator. -/
def instantiatePiece (t : Datum) : Piece Instantiator := ⟨t, instantiate t⟩

lemma instantiatePieces_eq : ∀ d : Datum,
    instantiatePieces d = d.spine.map instantiatePiece
  | .pair a d => by rw [instantiatePieces, instantiatePieces_eq d]; rfl
  | .boolean _ | .number _ | .character _ | .string _ | .symbol _ | .null | .vector _
  | .byteVector _ => rfl

lemma instantiate_pair (a d : Datum) (b : Bindings) :
    instantiate (.pair a d) b = (do
      let out ← instantiateSpine b ((Datum.pair a d).spine.map instantiatePiece)
      let tail ← instantiateAtom (Datum.pair a d).lastCdr b
      return rebuildListWithTail out tail) := by
  rw [instantiate, instantiatePieces_eq]
  rfl

lemma instantiate_atom {t : Datum} (h : t.isPair = false) : instantiate t = instantiateAtom t := by
  cases t <;> first | rfl | cases h

end CrabScheme.Expand
