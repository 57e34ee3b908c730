import CrabScheme.Data.Equivalence
import CrabScheme.Expand.Datum
import CrabScheme.Text.Lexer

/-!
# The reader

The recursive reader of `cs-parse`: it turns the tokens of a text into a datum, with one token of
lookahead, and a datum into a value on the store. The functions of the reader call each other in
a circle, so they take a bound on the depth of the recursion; `ReaderError.depth` is the answer
when it is used up, and a larger bound never changes any other answer.

## Main results

* `SymbolTable.intern_name` — a symbol is found again under its name.
-/

namespace CrabScheme.Text

open Expand (Datum rebuildListWithTail)

/-- Errors of the reader. `depth` is no error of the source. -/
inductive ReaderError
  | lex (e : LexError)
  | unexpectedToken (what : String)
  | unclosedList
  | depth
deriving DecidableEq

/-- A reader: the text that is left and a token it has looked at. -/
structure Reader where
  rest : List Char
  peeked : Option Token

section Read

variable (ops : TextOps)

/-- `next_tok`. -/
def Reader.nextTok (r : Reader) : Except ReaderError (Token × Reader) :=
  match r.peeked with
  | some tok => .ok (tok, { r with peeked := none })
  | none =>
    match nextToken ops r.rest with
    | .ok (tok, rest) => .ok (tok, { rest := rest, peeked := none })
    | .error e => .error (.lex e)

/-- `peek_tok`. -/
def Reader.peekTok (r : Reader) : Except ReaderError (Token × Reader) :=
  match r.peeked with
  | some tok => .ok (tok, r)
  | none =>
    match nextToken ops r.rest with
    | .ok (tok, rest) => .ok (tok, { rest := rest, peeked := some tok })
    | .error e => .error (.lex e)

/-- `read_bytevector`, after the opening token: the bound counts the elements. -/
def readBytevector : ℕ → List UInt8 → Reader → Except ReaderError (Datum × Reader)
  | 0, _, _ => .error .depth
  | n + 1, bytes, r => do
    let (tok, r) ← r.peekTok ops
    match tok with
    | .rparen | .rbracket =>
      let (_, r) ← r.nextTok ops
      .ok (.byteVector bytes, r)
    | .eof => .error .unclosedList
    | .number num =>
      let (_, r) ← r.nextTok ops
      match num with
      | .fixnum v =>
        if 0 ≤ v.val ∧ v.val ≤ 255 then
          readBytevector n (bytes ++ [UInt8.ofNat v.val.toNat]) r
        else
          .error (.unexpectedToken ("byte literal " ++ toString v.val ++ " out of 0..=255"))
      | _ => .error (.unexpectedToken "bytevector element must be an exact byte (0..=255)")
    | _ => .error (.unexpectedToken "bytevector element must be a byte literal")

mutual

/-- **`read`**: the next datum, `none` at the end of the text. -/
def read : ℕ → Reader → Except ReaderError (Option Datum × Reader)
  | 0, _ => .error .depth
  | n + 1, r => do
    let (tok, r) ← r.nextTok ops
    match tok with
    | .eof => .ok (none, r)
    | .hashSemi =>
      let (_, r) ← readRequired n r
      read n r
    | tok =>
      let (d, r) ← readToken n tok r
      .ok (some d, r)

/-- `read_required`. -/
def readRequired : ℕ → Reader → Except ReaderError (Datum × Reader)
  | 0, _ => .error .depth
  | n + 1, r => do
    match ← read n r with
    | (some d, r) => .ok (d, r)
    | (none, _) => .error (.unexpectedToken "EOF")

/-- `read_token`. -/
def readToken : ℕ → Token → Reader → Except ReaderError (Datum × Reader)
  | 0, _, _ => .error .depth
  | n + 1, tok, r =>
    match tok with
    | .boolean b => .ok (.boolean b, r)
    | .number m => .ok (.number m, r)
    | .character c => .ok (.character c, r)
    | .string s => .ok (.string (String.ofList s), r)
    | .identifier name => .ok (.symbol (String.ofList name), r)
    | .lparen | .lbracket => readList n [] r
    | .hashLParen => readVector n [] r
    | .hashU8LParen => readBytevector ops n [] r
    | .quote => readQuoteForm n "quote" r
    | .quasiQuote => readQuoteForm n "quasiquote" r
    | .unquote => readQuoteForm n "unquote" r
    | .unquoteSplicing => readQuoteForm n "unquote-splicing" r
    | .rparen | .rbracket => .error (.unexpectedToken "closing paren without opener")
    | .dot => .error (.unexpectedToken "'.' outside of list")
    -- handled in `read`
    | .hashSemi | .eof => .error (.unexpectedToken "unreachable")

/-- The loop of `read_list`, with the items read so far. -/
def readList : ℕ → List Datum → Reader → Except ReaderError (Datum × Reader)
  | 0, _, _ => .error .depth
  | n + 1, items, r => do
    let (tok, r) ← r.peekTok ops
    match tok with
    | .rparen | .rbracket =>
      let (_, r) ← r.nextTok ops
      .ok (rebuildListWithTail items .null, r)
    | .dot =>
      let (_, r) ← r.nextTok ops
      let (cdr, r) ← readRequired n r
      let (close, r) ← r.nextTok ops
      match close with
      | .rparen | .rbracket => .ok (rebuildListWithTail items cdr, r)
      | _ => .error (.unexpectedToken "expected ')' after dotted tail")
    | .eof => .error .unclosedList
    | _ =>
      match ← read n r with
      | (some d, r) => readList n (items ++ [d]) r
      | (none, _) => .error .unclosedList

/-- The loop of `read_vector`. -/
def readVector : ℕ → List Datum → Reader → Except ReaderError (Datum × Reader)
  | 0, _, _ => .error .depth
  | n + 1, items, r => do
    let (tok, r) ← r.peekTok ops
    match tok with
    | .rparen | .rbracket =>
      let (_, r) ← r.nextTok ops
      .ok (.vector items, r)
    | .eof => .error .unclosedList
    | _ =>
      let (d, r) ← readRequired n r
      readVector n (items ++ [d]) r

/-- `read_quote_form`. -/
def readQuoteForm : ℕ → String → Reader → Except ReaderError (Datum × Reader)
  | 0, _, _ => .error .depth
  | n + 1, name, r => do
    let (inner, r) ← readRequired n r
    .ok (.pair (.symbol name) (.pair inner .null), r)

end

end Read

/-! ### From data to values -/

/-- The table of interned symbols: a symbol is the index of its name. -/
structure SymbolTable where
  names : List String
  nodup : names.Nodup

namespace SymbolTable

/-- `SymbolTable::intern`. -/
def intern (t : SymbolTable) (name : String) : Symbol × SymbolTable :=
  if h : name ∈ t.names then (⟨t.names.idxOf name⟩, t)
  else (⟨t.names.length⟩, ⟨t.names ++ [name], List.nodup_append.2
    ⟨t.nodup, List.nodup_singleton name, by rintro a ha b hb rfl; simp_all⟩⟩)

/-- `SymbolTable::name`. -/
def name (t : SymbolTable) (s : Symbol) : Option String := t.names[s.id]?

lemma intern_name {t : SymbolTable} {s : Symbol} {name : String} (h : t.name s = some name) :
    t.intern name = (s, t) := by
  obtain ⟨hlt, rfl⟩ := List.getElem?_eq_some_iff.1 h
  rw [intern, dif_pos (List.getElem_mem hlt), t.nodup.idxOf_getElem]

end SymbolTable

mutual

/-- `Datum::to_value`; objects are allocated at the end of the store. -/
def toValue : Datum → SymbolTable → Data.Store → Data.Value × SymbolTable × Data.Store
  | .boolean b, t, h => (.boolean b, t, h)
  | .number n, t, h => (.number n, t, h)
  | .character c, t, h => (.character c, t, h)
  | .string s, t, h => (.string h.length, t, h ++ [.string s.toList])
  | .symbol s, t, h => (.symbol (t.intern s).1, (t.intern s).2, h)
  | .null, t, h => (.null, t, h)
  | .pair car cdr, t, h =>
    let p := toValue car t h
    let q := toValue cdr p.2.1 p.2.2
    (.pair q.2.2.length, q.2.1, q.2.2 ++ [.pair p.1 q.1])
  | .vector items, t, h =>
    let p := toValues items t h
    (.vector p.2.2.length, p.2.1, p.2.2 ++ [.vector p.1])
  | .byteVector bytes, t, h => (.byteVector h.length, t, h ++ [.byteVector bytes])

/-- The values of the items of a vector. -/
def toValues : List Datum → SymbolTable → Data.Store →
    List Data.Value × SymbolTable × Data.Store
  | [], t, h => ([], t, h)
  | d :: ds, t, h =>
    let p := toValue d t h
    let q := toValues ds p.2.1 p.2.2
    (p.1 :: q.1, q.2.1, q.2.2)

end

end CrabScheme.Text
