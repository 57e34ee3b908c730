import CrabScheme.Lib.Sequence
import CrabScheme.Text.RoundTrip

/-!
# Lengths of tokens and of what is read

The lexer and the reader only go forward, and whatever they pass over (blanks, comments,
parentheses, bars and escapes) makes a name shorter than the text it is read from: reading gives a
symbol only from the identifier at the start of the text, or one with a shorter name.

## Main results

* `nextToken_fits` — every token of the lexer fits.
* `ReadsWithin.all` — the bounds hold at every depth of the recursion.
-/

namespace CrabScheme.Text

open Expand (Datum rebuildListWithTail)

variable {ops : TextOps}

/-! ### Lengths of tokens -/

variable {s out rest : List Char} {k : ℕ} {tok : Token} {r : Reader} {d : Datum}

lemma skip_suffix {mode : SkipMode} {t : List Char} (h : skip mode s = .ok t) : t <:+ s := by
  have hcons : ∀ {c : Char} {s : List Char}, t <:+ s → t <:+ c :: s :=
    fun hs => hs.trans (List.suffix_cons _ _)
  fun_induction skip mode s
  all_goals first
    | (cases h; exact List.suffix_rfl)
    | cases h
    | (rename_i ih; exact hcons (hcons (ih h)))
    | (rename_i ih; exact hcons (ih h))

lemma hexEscape_length (h : hexEscape s = some (out, k)) : out.length ≤ 1 := by
  unfold hexEscape at h
  dsimp only at h
  split at h
  · cases h; simp
  · cases h

lemma pipeEscape_length (h : pipeEscape s = some (out, k)) : out.length ≤ 1 := by
  unfold pipeEscape at h
  split at h
  case h_8 | h_9 =>
    obtain ⟨⟨out', k'⟩, hhex, hp⟩ := Option.map_eq_some_iff.1 h
    cases hp
    exact hexEscape_length hhex
  all_goals
    cases h
    try simp

lemma stringEscape_length (h : stringEscape s = some (out, k)) : out.length ≤ 1 := by
  unfold stringEscape at h
  split at h
  case h_14 =>
    split_ifs at h
    obtain ⟨k', -, hp⟩ := Option.map_eq_some_iff.1 h
    cases hp
    simp
  case h_12 | h_13 =>
    obtain ⟨⟨out', k'⟩, hhex, hp⟩ := Option.map_eq_some_iff.1 h
    cases hp
    exact hexEscape_length hhex
  all_goals
    cases h
    try simp

lemma takeName_dropName (s : List Char) : (takeName s).length + (dropName s).length = s.length := by
  rw [takeName, dropName, ← List.length_append, List.takeWhile_append_dropWhile]

lemma scanQuoted_length {close : Char} {escape : List Char → Option (List Char × ℕ)}
    (hescape : ∀ {s out k}, escape s = some (out, k) → out.length ≤ 1)
    (h : scanQuoted close escape k s = .ok (out, rest)) : out.length + rest.length < s.length := by
  induction s generalizing k out rest with
  | nil => cases k <;> simp [scanQuoted] at h
  | cons c s ih =>
    cases k with
    | succ k =>
      have := ih h
      simp only [List.length_cons]
      omega
    | zero =>
      rw [scanQuoted] at h
      split_ifs at h with hclose hback
      · cases h; simp
      · split at h
        · cases h
        · rename_i o k he
          have ho := hescape he
          cases hs : scanQuoted close escape k s with
          | error e => simp [hs, Except.map] at h
          | ok p =>
            have := ih hs
            simp only [hs] at h
            obtain ⟨rfl, rfl⟩ := h
            simp only [List.length_append, List.length_cons]
            omega
      · cases hs : scanQuoted close escape 0 s with
        | error e => simp [hs, Except.map] at h
        | ok p =>
          have := ih hs
          simp only [hs, Prod.mk.injEq] at h
          obtain ⟨rfl, rfl⟩ := h
          simp only [List.length_cons]
          omega

lemma scanNumber_length (dot slash exp signNext : Bool) (s : List Char) :
    (scanNumber dot slash exp signNext s).2.length ≤ s.length := by
  induction s generalizing dot slash exp signNext with
  | nil => simp [scanNumber]
  | cons c s ih =>
    rw [scanNumber]
    split_ifs <;> simp only [List.length_cons] <;>
      first
        | exact Nat.le_succ_of_le (ih _ _ _ _)
        | exact le_rfl

lemma numberToken_rest {text rest' : List Char} (h : numberToken ops text rest = .ok (tok, rest')) :
    rest' = rest ∧ ∃ n, tok = .number n := by
  unfold numberToken at h
  split at h
  · cases h; exact ⟨rfl, _, rfl⟩
  · cases h

lemma splitSign_length (s : List Char) : (splitSign s).2.length ≤ s.length := by
  unfold splitSign
  split <;> simp

lemma readNumber_length {lead : List Char} (h : readNumber ops lead s = .ok (tok, rest)) :
    rest.length ≤ s.length ∧ ∃ n, tok = .number n := by
  unfold readNumber at h
  dsimp only at h
  split at h
  · obtain ⟨rfl, hn⟩ := numberToken_rest h
    exact ⟨le_trans (by simp) (splitSign_length s), hn⟩
  · obtain ⟨rfl, hn⟩ := numberToken_rest h
    exact ⟨(scanNumber_length _ _ _ _ _).trans (splitSign_length s), hn⟩

lemma readRadixNumber_length {radix : ℕ} (h : readRadixNumber radix s = .ok (tok, rest)) :
    rest.length ≤ s.length ∧ ∃ n, tok = .number n := by
  unfold readRadixNumber at h
  dsimp only at h
  split at h
  · cases h
  · split at h
    · cases h
      exact ⟨(List.dropWhile_suffix _).length_le.trans (splitSign_length s), _, rfl⟩
    · cases h

lemma readCharacter_length (h : readCharacter s = .ok (tok, rest)) :
    rest.length ≤ s.length ∧ ∃ c, tok = .character c := by
  unfold readCharacter at h
  dsimp only at h
  split at h
  · cases h
    refine ⟨(List.dropWhile_suffix _).length_le.trans ?_, _, rfl⟩
    simp
  · cases h

/-- **How long a token is**: what is left is not longer than the text, and shorter after an
opening parenthesis or a datum comment; and the name of an identifier is not longer than what
was taken. -/
structure Fits (s : List Char) (tok : Token) (rest : List Char) : Prop where
  rest_le : rest.length ≤ s.length
  opens : tok = .lparen ∨ tok = .lbracket ∨ tok = .hashSemi → rest.length < s.length
  name_le : ∀ name, tok = .identifier name → name.length + rest.length ≤ s.length

lemma Fits.of_number (h : rest.length ≤ s.length ∧ ∃ n, tok = .number n) : Fits s tok rest := by
  obtain ⟨hle, n, rfl⟩ := h
  exact ⟨hle, by simp, by simp⟩

lemma Fits.cons (c : Char) (h : Fits s tok rest) : Fits (c :: s) tok rest :=
  ⟨Nat.le_succ_of_le h.rest_le, fun ho => Nat.lt_succ_of_lt (h.opens ho),
    fun name hn => Nat.le_succ_of_le (h.name_le name hn)⟩

lemma Fits.cut (c : Char) (hs : rest.length ≤ s.length) (hname : ∀ name, tok ≠ .identifier name)
    : Fits (c :: s) tok rest :=
  ⟨Nat.le_succ_of_le hs, fun _ => Nat.lt_succ_of_le hs, fun name h => absurd h (hname name)⟩

lemma Fits.identifier (s : List Char) : Fits s (.identifier (takeName s)) (dropName s) where
  rest_le := (List.dropWhile_suffix _).length_le
  opens := by simp
  name_le := by
    rintro name ⟨⟩
    exact (takeName_dropName s).le

lemma Fits.of_character (h : rest.length ≤ s.length ∧ ∃ c, tok = .character c)
    : Fits s tok rest := by
  obtain ⟨hle, n, rfl⟩ := h
  exact ⟨hle, by simp, by simp⟩

lemma readHash_fits (h : readHash ops s = .ok (tok, rest)) : Fits ('#' :: s) tok rest := by
  unfold readHash at h
  split at h
  case h_5 => exact ((Fits.of_character (readCharacter_length h)).cons _).cons _
  case h_6 | h_7 | h_8 | h_9 | h_10 | h_11 =>
    exact ((Fits.of_number (readRadixNumber_length h)).cons _).cons _
  case h_12 | h_13 => exact ((Fits.of_number (readNumber_length h)).cons _).cons _
  case h_14 =>
    cases h
    exact .cut _ (by simp only [List.length_cons]; omega) (by simp)
  case h_15 s =>
    cases h
    have hs := takeName_dropName s
    refine ⟨?_, by simp, ?_⟩
    · simp only [List.length_cons]
      omega
    · rintro name ⟨⟩
      simp only [List.length_cons]
      omega
  case h_16 => cases h
  all_goals
    cases h
    exact .cut _ (by simp) (by simp)

lemma readSign_fits {c : Char} (h : readSign ops c s = .ok (tok, rest))
    : Fits (c :: s) tok rest := by
  unfold readSign at h
  split at h
  · cases h
    exact .identifier _
  · split_ifs at h
    · exact .of_number (readNumber_length h)
    · exact .of_number (readNumber_length h)
    · cases h
      exact .identifier _

lemma readPoint_fits (h : readPoint ops s = .ok (tok, rest)) : Fits ('.' :: s) tok rest := by
  unfold readPoint at h
  split at h
  · cases h
    exact .cut _ le_rfl (by simp)
  · split_ifs at h
    · exact .of_number (readNumber_length h)
    · cases h
      exact .cut _ le_rfl (by simp)
    · cases h
      exact .identifier _

lemma readPipeIdentifier_length (h : readPipeIdentifier s = .ok (tok, rest)) :
    ∃ name, tok = .identifier name ∧ name.length + rest.length < s.length := by
  unfold readPipeIdentifier at h
  cases hs : scanQuoted '|' pipeEscape 0 s with
  | error e => simp [hs, Except.map] at h
  | ok p =>
    simp only [hs] at h
    obtain ⟨rfl, rfl⟩ := h
    exact ⟨p.1, rfl, scanQuoted_length pipeEscape_length hs⟩

lemma readString_length (h : readString s = .ok (tok, rest))
    : (∃ t, tok = .string t) ∧ rest.length ≤ s.length := by
  unfold readString at h
  cases hs : scanQuoted '\x22' stringEscape 0 s with
  | error e => simp [hs, Except.map] at h
  | ok p =>
    simp only [hs] at h
    obtain ⟨rfl, rfl⟩ := h
    have := scanQuoted_length stringEscape_length hs
    exact ⟨⟨_, rfl⟩, by omega⟩

lemma tokenAt_fits (h : tokenAt ops s = .ok (tok, rest)) : Fits s tok rest := by
  unfold tokenAt at h
  split at h
  case h_1 =>
    cases h
    exact ⟨le_rfl, by simp, by simp⟩
  case h_8 =>
    cases h
    exact .cut _ (by simp) (by simp)
  case h_10 =>
    obtain ⟨⟨t, rfl⟩, hle⟩ := readString_length h
    exact .cut _ hle (by simp)
  case h_11 => exact readHash_fits h
  case h_12 | h_13 => exact readSign_fits h
  case h_14 => exact readPoint_fits h
  case h_15 =>
    obtain ⟨name, rfl, hlt⟩ := readPipeIdentifier_length h
    refine ⟨?_, by simp, ?_⟩
    · simp only [List.length_cons]
      omega
    · rintro name' ⟨⟩
      simp only [List.length_cons]
      omega
  case h_16 =>
    split_ifs at h
    · exact .of_number (readNumber_length h)
    · cases h
      exact .identifier _
  all_goals
    cases h
    exact .cut _ le_rfl (by simp)

/-- **How long tokens are.** -/
lemma nextToken_fits (h : nextToken ops s = .ok (tok, rest)) : Fits s tok rest := by
  unfold nextToken at h
  split at h
  · rename_i t ht
    have hfits := tokenAt_fits h
    have hle := (skip_suffix ht).length_le
    exact ⟨hfits.rest_le.trans hle, fun ho => (hfits.opens ho).trans_le hle,
      fun name hn => (hfits.name_le name hn).trans hle⟩
  · cases h

/-! ### Lengths of what is read -/

lemma nextTok_ok (h : Reader.nextTok ops ⟨s, none⟩ = .ok (tok, r)) :
    nextToken ops s = .ok (tok, r.rest) ∧ r = ⟨r.rest, none⟩ := by
  unfold Reader.nextTok at h
  dsimp only at h
  split at h
  · rename_i tok' rest heq
    cases h
    exact ⟨heq, rfl⟩
  · cases h

lemma peekTok_ok (h : Reader.peekTok ops ⟨s, none⟩ = .ok (tok, r)) :
    nextToken ops s = .ok (tok, r.rest) ∧ r = ⟨r.rest, some tok⟩ := by
  unfold Reader.peekTok at h
  dsimp only at h
  split at h
  · rename_i tok' rest heq
    cases h
    exact ⟨heq, rfl⟩
  · cases h

lemma readRequired_peeked {text : List Char} (n : ℕ) (htok : nextToken ops text = .ok (tok, rest)) :
    readRequired ops n ⟨rest, some tok⟩ = readRequired ops n ⟨text, none⟩ := by
  cases n with
  | zero => rfl
  | succ n => simp only [readRequired, read_peeked n htok]

/-- A reader that has looked at no token and has at most so many characters left. -/
def Reader.Within (r : Reader) (k : ℕ) : Prop := r.peeked = none ∧ r.rest.length ≤ k

lemma Reader.Within.eq (h : r.Within k) : r = ⟨r.rest, none⟩ := by
  obtain ⟨rest, peeked⟩ := r
  rw [show peeked = none from h.1]

lemma Reader.Within.mono {l : ℕ} (h : r.Within k) (hkl : k ≤ l) : r.Within l :=
  ⟨h.1, h.2.trans hkl⟩

lemma nextTok_within (h : Reader.nextTok ops ⟨s, none⟩ = .ok (tok, r)) : r.Within s.length := by
  obtain ⟨htok, hr⟩ := nextTok_ok h
  rw [hr]
  exact ⟨rfl, (nextToken_fits htok).rest_le⟩

lemma nextTok_peeked {tok' : Token} (h : Reader.nextTok ops ⟨rest, some tok⟩ = .ok (tok', r))
    : r = ⟨rest, none⟩ := by
  cases h
  rfl

/-- The symbols among the data have names of at most so many characters. -/
def SymbolUpTo (d : Datum) (k : ℕ) : Prop := ∀ name, d = .symbol name → name.toList.length ≤ k

lemma SymbolUpTo.rebuild (items : List Datum) (h : SymbolUpTo d k) :
    SymbolUpTo (rebuildListWithTail items d) k := by
  cases items with
  | nil => exact h
  | cons x items => exact nofun

lemma readBytevector_within {n : ℕ} {bytes : List UInt8}
    (h : readBytevector ops n bytes ⟨s, none⟩ = .ok (d, r)) :
    r.Within s.length ∧ ∀ name, d ≠ .symbol name := by
  induction n generalizing bytes s with
  | zero => cases h
  | succ n ih =>
    obtain ⟨⟨tok, r1⟩, hpeek, h⟩ := Sequence.bind_eq_ok_iff.1 h
    obtain ⟨htok, hr1⟩ := peekTok_ok hpeek
    have hle := (nextToken_fits htok).rest_le
    rw [hr1] at h
    dsimp only at h
    split at h
    case h_1 | h_2 =>
      cases h
      exact ⟨⟨rfl, hle⟩, nofun⟩
    case h_4 =>
      obtain ⟨⟨_, r2⟩, hnext, h⟩ := Sequence.bind_eq_ok_iff.1 h
      cases nextTok_peeked hnext
      split at h
      · split at h
        · exact (ih h).imp_left (·.mono hle)
        · cases h
      · cases h
    all_goals cases h

/-- **What a reading leaves and how long a symbol it gives is**, for every function of the
reader at a bound of the recursion. Reading gives a symbol only from the identifier at the start
of the text or with a name shorter than the text. -/
structure ReadsWithin (ops : TextOps) (n : ℕ) : Prop where
  read : ∀ {s : List Char} {x : Option Datum} {r : Reader},
    read ops n ⟨s, none⟩ = .ok (x, r) → r.Within s.length ∧ ∀ name, x = some (.symbol name) →
      (∃ rest, nextToken ops s = .ok (.identifier name.toList, rest)) ∨
        name.toList.length < s.length
  required : ∀ {s : List Char} {d : Datum} {r : Reader},
    readRequired ops n ⟨s, none⟩ = .ok (d, r) → r.Within s.length ∧ SymbolUpTo d s.length
  token : ∀ {tok : Token} {s : List Char} {d : Datum} {r : Reader},
    readToken ops n tok ⟨s, none⟩ = .ok (d, r) → r.Within s.length ∧ ∀ name, d = .symbol name →
      tok = .identifier name.toList ∨
        (tok = .lparen ∨ tok = .lbracket) ∧ name.toList.length ≤ s.length
  list : ∀ {items : List Datum} {s : List Char} {d : Datum} {r : Reader},
    readList ops n items ⟨s, none⟩ = .ok (d, r) → r.Within s.length ∧ SymbolUpTo d s.length
  vector : ∀ {items : List Datum} {s : List Char} {d : Datum} {r : Reader},
    readVector ops n items ⟨s, none⟩ = .ok (d, r) → r.Within s.length ∧ ∀ name, d ≠ .symbol name
  quoteForm : ∀ {name : String} {s : List Char} {d : Datum} {r : Reader},
    readQuoteForm ops n name ⟨s, none⟩ = .ok (d, r) → r.Within s.length ∧ ∀ name, d ≠ .symbol name

namespace ReadsWithin

variable {n : ℕ}

lemma zero : ReadsWithin ops 0 := by
  refine ⟨?_, ?_, ?_, ?_, ?_, ?_⟩ <;> intros <;> rename_i h <;> cases h

section

variable (ih : ReadsWithin ops n)

include ih

lemma symbolUpTo (h : Text.read ops n ⟨s, none⟩ = .ok (some d, r)) : SymbolUpTo d s.length := by
  rintro name rfl
  rcases (ih.read h).2 name rfl with ⟨rest, htok⟩ | hlt
  · have := (nextToken_fits htok).name_le _ rfl
    omega
  · omega

lemma read_succ {x : Option Datum} (h : Text.read ops (n + 1) ⟨s, none⟩ = .ok (x, r)) :
    r.Within s.length ∧ ∀ name, x = some (.symbol name) →
      (∃ rest, nextToken ops s = .ok (.identifier name.toList, rest)) ∨
        name.toList.length < s.length := by
  obtain ⟨⟨tok, r1⟩, hnext, h⟩ := Sequence.bind_eq_ok_iff.1 h
  obtain ⟨htok, hr1⟩ := nextTok_ok hnext
  have hfits := nextToken_fits htok
  rw [hr1] at h
  dsimp only at h
  split at h
  case h_1 =>
    cases h
    exact ⟨⟨rfl, hfits.rest_le⟩, by simp⟩
  case h_2 =>
    obtain ⟨⟨d, r2⟩, hrequired, h⟩ := Sequence.bind_eq_ok_iff.1 h
    have hlt := hfits.opens (.inr (.inr rfl))
    obtain ⟨hr2, -⟩ := ih.required hrequired
    rw [hr2.eq] at h
    have hr2 := hr2.2
    refine ⟨(ih.read h).1.mono (by omega), fun name hname => .inr ?_⟩
    subst hname
    have := ih.symbolUpTo h name rfl
    omega
  case h_3 =>
    obtain ⟨⟨d, r2⟩, htoken, h⟩ := Sequence.bind_eq_ok_iff.1 h
    cases h
    obtain ⟨hr, hd⟩ := ih.token htoken
    refine ⟨hr.mono hfits.rest_le, fun name hname => ?_⟩
    rcases hd name (Option.some.inj hname) with rfl | ⟨hopen, hlen⟩
    · exact .inl ⟨_, htok⟩
    · exact .inr (hlen.trans_lt (hfits.opens (hopen.imp_right .inl)))

lemma required_succ (h : readRequired ops (n + 1) ⟨s, none⟩ = .ok (d, r)) :
    r.Within s.length ∧ SymbolUpTo d s.length := by
  obtain ⟨⟨x, r1⟩, hread, h⟩ := Sequence.bind_eq_ok_iff.1 h
  cases x with
  | none => cases h
  | some d' =>
    cases h
    exact ⟨(ih.read hread).1, ih.symbolUpTo hread⟩

lemma token_succ (h : readToken ops (n + 1) tok ⟨s, none⟩ = .ok (d, r)) :
    r.Within s.length ∧ ∀ name, d = .symbol name → tok = .identifier name.toList ∨
      (tok = .lparen ∨ tok = .lbracket) ∧ name.toList.length ≤ s.length := by
  -- tokens that are no identifier and open no list give no symbol
  have hother : (r.Within s.length ∧ ∀ name, d ≠ .symbol name) →
      r.Within s.length ∧ ∀ name, d = .symbol name → tok = .identifier name.toList ∨
        (tok = .lparen ∨ tok = .lbracket) ∧ name.toList.length ≤ s.length := by
    rintro ⟨hr, hd⟩
    exact ⟨hr, fun name hname => absurd hname (hd name)⟩
  cases tok with
  | boolean _ | number _ | character _ | string _ =>
    cases h
    exact ⟨⟨rfl, le_rfl⟩, nofun⟩
  | identifier name =>
    cases h
    refine ⟨⟨rfl, le_rfl⟩, fun name' hname => .inl ?_⟩
    rw [← Datum.symbol.inj hname, String.toList_ofList]
  | lparen =>
    obtain ⟨hr, hd⟩ := ih.list h
    exact ⟨hr, fun name hname => .inr ⟨.inl rfl, hd name hname⟩⟩
  | lbracket =>
    obtain ⟨hr, hd⟩ := ih.list h
    exact ⟨hr, fun name hname => .inr ⟨.inr rfl, hd name hname⟩⟩
  | hashLParen => exact hother (ih.vector h)
  | hashU8LParen => exact hother (readBytevector_within h)
  | quote | quasiQuote | unquote | unquoteSplicing => exact hother (ih.quoteForm h)
  | rparen | rbracket | dot | hashSemi | eof => cases h

lemma list_succ {items : List Datum} (h : readList ops (n + 1) items ⟨s, none⟩ = .ok (d, r)) :
    r.Within s.length ∧ SymbolUpTo d s.length := by
  obtain ⟨⟨tok, r1⟩, hpeek, h⟩ := Sequence.bind_eq_ok_iff.1 h
  obtain ⟨htok, hr1⟩ := peekTok_ok hpeek
  have hle := (nextToken_fits htok).rest_le
  rw [hr1] at h
  dsimp only at h
  split at h
  case h_1 | h_2 =>
    cases h
    exact ⟨⟨rfl, hle⟩, SymbolUpTo.rebuild items nofun⟩
  case h_3 =>
    obtain ⟨⟨_, r2⟩, hnext, h⟩ := Sequence.bind_eq_ok_iff.1 h
    cases nextTok_peeked hnext
    obtain ⟨⟨cdr, r3⟩, hrequired, h⟩ := Sequence.bind_eq_ok_iff.1 h
    obtain ⟨hr3, hcdr⟩ := ih.required hrequired
    rw [hr3.eq] at h
    obtain ⟨⟨close, r4⟩, hnext, h⟩ := Sequence.bind_eq_ok_iff.1 h
    have hr4 := (nextTok_within hnext).mono (hr3.2.trans hle)
    have hd : SymbolUpTo (rebuildListWithTail items cdr) s.length :=
      SymbolUpTo.rebuild items fun name hname => (hcdr name hname).trans hle
    cases close with
    | rparen | rbracket => cases h; exact ⟨hr4, hd⟩
    | _ => cases h
  case h_4 => cases h
  case h_5 =>
    rw [read_peeked n htok] at h
    obtain ⟨⟨x, r2⟩, hread, h⟩ := Sequence.bind_eq_ok_iff.1 h
    have hr2 := (ih.read hread).1
    cases x with
    | none => cases h
    | some d' =>
      rw [hr2.eq] at h
      obtain ⟨hr, hd⟩ := ih.list h
      exact ⟨hr.mono hr2.2, fun name hname => (hd name hname).trans hr2.2⟩

lemma vector_succ {items : List Datum} (h : readVector ops (n + 1) items ⟨s, none⟩ = .ok (d, r)) :
    r.Within s.length ∧ ∀ name, d ≠ .symbol name := by
  obtain ⟨⟨tok, r1⟩, hpeek, h⟩ := Sequence.bind_eq_ok_iff.1 h
  obtain ⟨htok, hr1⟩ := peekTok_ok hpeek
  have hle := (nextToken_fits htok).rest_le
  rw [hr1] at h
  dsimp only at h
  split at h
  case h_1 | h_2 =>
    cases h
    exact ⟨⟨rfl, hle⟩, nofun⟩
  case h_3 => cases h
  case h_4 =>
    rw [readRequired_peeked n htok] at h
    obtain ⟨⟨d', r2⟩, hrequired, h⟩ := Sequence.bind_eq_ok_iff.1 h
    have hr2 := (ih.required hrequired).1
    rw [hr2.eq] at h
    exact (ih.vector h).imp_left (·.mono hr2.2)

lemma quoteForm_succ {name : String} (h : readQuoteForm ops (n + 1) name ⟨s, none⟩ = .ok (d, r)) :
    r.Within s.length ∧ ∀ name, d ≠ .symbol name := by
  obtain ⟨⟨inner, r1⟩, hrequired, h⟩ := Sequence.bind_eq_ok_iff.1 h
  cases h
  exact ⟨(ih.required hrequired).1, nofun⟩

end

/-- The bounds hold at every depth of the recursion. -/
theorem all (ops : TextOps) (n : ℕ) : ReadsWithin ops n := by
  induction n with
  | zero => exact zero
  | succ n ih =>
    exact ⟨ih.read_succ, ih.required_succ, ih.token_succ, ih.list_succ, ih.vector_succ,
      ih.quoteForm_succ⟩

end ReadsWithin

end CrabScheme.Text
