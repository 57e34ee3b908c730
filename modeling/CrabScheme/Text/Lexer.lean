import CrabScheme.Core.Arithmetic
import CrabScheme.Lib.Numeral

/-!
# The lexer

The hand-written tokenizer of `cs-lex`. A text is a list of characters: the source scans bytes,
but it only ever compares them with ASCII characters, and a byte of a longer character is like
none of them. Source positions are left out. The lexer is a function from the text that is left
to a token and what is left after it; a token that is an error ends the reading.

Loops of the source that look ahead a variable number of characters inside a literal (hexadecimal
escapes, line continuations) answer how many characters they have taken, and the scan of the
literal passes over them.
-/

namespace CrabScheme.Text

/-- The conversions of `f64` that reading and printing use. `parseF64` is `str::parse::<f64>`,
`displayF64` prints a finite double with a fraction. -/
structure TextOps extends DivisionOps where
  parseF64 : List Char → Option F64
  displayF64 : F64 → List Char

/-- **Tokens.** An identifier carries its name; within one session the name determines the
interned symbol. -/
inductive Token
  | lparen
  | rparen
  | lbracket
  | rbracket
  | quote
  | quasiQuote
  | unquote
  | unquoteSplicing
  | dot
  | hashLParen
  | hashU8LParen
  | hashSemi
  | boolean (b : Bool)
  | number (n : Number)
  | string (s : List Char)
  | character (c : Char)
  | identifier (name : List Char)
  | eof
deriving DecidableEq

/-- Lexical errors. -/
inductive LexError
  | unexpectedChar (c : Char)
  | unterminatedString
  | unterminatedBlockComment
  | badEscape
  | badCharacter
  | badNumber (src : List Char)
deriving DecidableEq

/-! ### Character classes -/

/-- `is_ascii_whitespace`. -/
def isAsciiWhitespace (c : Char) : Bool :=
  c == ' ' || c == '\t' || c == '\n' || c == '\x0c' || c == '\r'

/-- `is_delimiter`; the characters are parentheses, brackets, the double quote, the quote, the
backquote, the comma and the semicolon. -/
def isDelimiter (c : Char) : Bool :=
  isAsciiWhitespace c ||
    ['(', ')', '[', ']', '\x22', '\x27', '\x60', ',', ';'].contains c

/-- `is_initial_ident`. -/
def isInitialIdent (c : Char) : Bool :=
  c.isAlpha || ['!', '$', '%', '&', '*', '/', ':', '<', '=', '>', '?', '^', '_', '~'].contains c

/-- `is_ascii_hexdigit`. -/
def isHexDigit (c : Char) : Bool :=
  c.isDigit || ('a' ≤ c && c ≤ 'f') || ('A' ≤ c && c ≤ 'F')

/-- `char::from_u32`. -/
def charOfCode (n : ℕ) : Option Char := if n.isValidChar then some (Char.ofNat n) else none

/-- The longest beginning without a delimiter. -/
def takeName (s : List Char) : List Char := s.takeWhile (!isDelimiter ·)

/-- What follows it. -/
def dropName (s : List Char) : List Char := s.dropWhile (!isDelimiter ·)

/-! ### White space and comments -/

/-- Where the skipping of blanks and comments is: between them, in a line comment, or in a block
comment inside the given number of others. -/
inductive SkipMode
  | plain
  | line
  | block (depth : ℕ)

/-- `skip_whitespace_and_comments`. -/
def skip : SkipMode → List Char → Except LexError (List Char)
  | .plain, [] => .ok []
  | .line, [] => .ok []
  | .block _, [] => .error .unterminatedBlockComment
  | .block d, '#' :: '|' :: s => skip (.block (d + 1)) s
  | .block 0, '|' :: '#' :: s => skip .plain s
  | .block (d + 1), '|' :: '#' :: s => skip (.block d) s
  | .block d, _ :: s => skip (.block d) s
  | .line, c :: s => if c = '\n' then skip .plain s else skip .line s
  | .plain, '#' :: '|' :: s => skip (.block 0) s
  | .plain, ';' :: s => skip .line s
  | .plain, c :: s => if isAsciiWhitespace c then skip .plain s else .ok (c :: s)

/-! ### Strings and identifiers in bars -/

/-- A hexadecimal escape, after its `x`: the character, and the number of characters taken. The
closing semicolon may be missing. -/
def hexEscape (s : List Char) : Option (List Char × ℕ) :=
  let digits := s.takeWhile isHexDigit
  let closing := if (s.dropWhile isHexDigit).head? = some ';' then 1 else 0
  match (Numeral.parseNat 16 digits).bind charOfCode with
  | some c => some ([c], digits.length + closing)
  | none => none

/-- A line continuation: blanks, one line ending, blanks. The answer is its length. -/
def lineContinuation (s : List Char) : Option ℕ :=
  let blank : Char → Bool := fun c => c == ' ' || c == '\t'
  let leading := (s.takeWhile blank).length
  let ending : ℕ :=
    match s.dropWhile blank with
    | '\r' :: '\n' :: _ => 2
    | '\r' :: _ => 1
    | '\n' :: _ => 1
    | _ => 0
  if ending = 0 then none
  else some (leading + ending + (((s.dropWhile blank).drop ending).takeWhile blank).length)

/-- What a backslash in a string stands for, and how many characters after it belong to it. -/
def stringEscape : List Char → Option (List Char × ℕ)
  | 'n' :: _ => some (['\n'], 1)
  | 't' :: _ => some (['\t'], 1)
  | 'r' :: _ => some (['\r'], 1)
  | '\x22' :: _ => some (['\x22'], 1)
  | '\x5c' :: _ => some (['\x5c'], 1)
  | '|' :: _ => some (['|'], 1)
  | 'a' :: _ => some (['\x07'], 1)
  | 'b' :: _ => some (['\x08'], 1)
  | 'v' :: _ => some (['\x0b'], 1)
  | 'f' :: _ => some (['\x0c'], 1)
  | '0' :: _ => some (['\x00'], 1)
  | 'x' :: s | 'X' :: s => (hexEscape s).map fun p => (p.1, p.2 + 1)
  | c :: s =>
    if c = '\n' ∨ c = '\r' ∨ c = ' ' ∨ c = '\t' then
      (lineContinuation (c :: s)).map fun k => ([], k)
    else none
  | [] => none

/-- What a backslash in an identifier in bars stands for. -/
def pipeEscape : List Char → Option (List Char × ℕ)
  | '|' :: _ => some (['|'], 1)
  | '\x5c' :: _ => some (['\x5c'], 1)
  | 'n' :: _ => some (['\n'], 1)
  | 't' :: _ => some (['\t'], 1)
  | 'r' :: _ => some (['\r'], 1)
  | 'a' :: _ => some (['\x07'], 1)
  | 'b' :: _ => some (['\x08'], 1)
  | 'x' :: s | 'X' :: s => (hexEscape s).map fun p => (p.1, p.2 + 1)
  | _ => none

/-- The common loop of `read_string` and `read_pipe_identifier`: the contents up to the closing
character and what follows it. The number counts the characters an escape has already taken. -/
def scanQuoted (close : Char) (escape : List Char → Option (List Char × ℕ)) :
    ℕ → List Char → Except LexError (List Char × List Char)
  | _, [] => .error .unterminatedString
  | k + 1, _ :: s => scanQuoted close escape k s
  | 0, c :: s =>
    if c = close then .ok ([], s)
    else if c = '\x5c' then
      match escape s with
      | none => .error .badEscape
      | some (out, k) => (scanQuoted close escape k s).map fun p => (out ++ p.1, p.2)
    else (scanQuoted close escape 0 s).map fun p => (c :: p.1, p.2)

/-- `read_string`, after the opening quote. -/
def readString (s : List Char) : Except LexError (Token × List Char) :=
  (scanQuoted '\x22' stringEscape 0 s).map fun p => (.string p.1, p.2)

/-- `read_pipe_identifier`, after the opening bar. -/
def readPipeIdentifier (s : List Char) : Except LexError (Token × List Char) :=
  (scanQuoted '|' pipeEscape 0 s).map fun p => (.identifier p.1, p.2)

/-- `read_identifier`. -/
def readIdentifier (s : List Char) : Token × List Char := (.identifier (takeName s), dropName s)

/-! ### Characters -/

/-- The characters that have names. -/
def namedCharacter (name : List Char) : Option Char :=
  if name = "space".toList then some ' '
  else if name = "newline".toList then some '\n'
  else if name = "tab".toList then some '\t'
  else if name = "return".toList then some '\r'
  else if name = "nul".toList ∨ name = "null".toList then some '\x00'
  else if name = "alarm".toList then some '\x07'
  else if name = "backspace".toList then some '\x08'
  else if name = "delete".toList then some '\x7f'
  else if name = "escape".toList then some '\x1b'
  else none

/-- `u32::from_str_radix` in radix 16: a plus sign is allowed. -/
def parseHex : List Char → Option ℕ
  | '+' :: s => Numeral.parseNat 16 s
  | s => Numeral.parseNat 16 s

/-- The character a name stands for: a named one, a hexadecimal code after an `x`, or itself. -/
def characterOfName (name : List Char) : Option Char :=
  match namedCharacter name with
  | some c => some c
  | none =>
    match name with
    | 'x' :: c :: s =>
      (parseHex ((c :: s).reverse.dropWhile (· == ';')).reverse).bind charOfCode
    | [c] => some c
    | _ => none

/-- `read_character`, after the backslash: the first character belongs to the name even if it is
a delimiter. -/
def readCharacter (s : List Char) : Except LexError (Token × List Char) :=
  let name := s.take 1 ++ takeName (s.drop 1)
  match characterOfName name with
  | some c => .ok (.character c, dropName (s.drop 1))
  | none => .error .badCharacter

/-! ### Numbers -/

section Numbers

variable (ops : TextOps)

/-- `Number::parse_decimal_integer` and `Number::parse_radix_integer`. -/
def parseRadixInteger (s : List Char) (radix : ℕ) : Option Number :=
  (Numeral.parseInteger radix s).map Number.simplifyBigint

/-- `str::parse::<i64>`. -/
def parseI64 (s : List Char) : Option I64 := (Numeral.parseInteger 10 s).bind I64.checked

/-- `parse_number`. Numerator and denominator of a rational are read as machine integers. -/
def parseNumber (s : List Char) : Option Number :=
  if s = "+inf.0".toList then some (.flonum ⟨0x7FF0000000000000⟩)
  else if s = "-inf.0".toList then some (.flonum ⟨0xFFF0000000000000⟩)
  else if s = "+nan.0".toList ∨ s = "-nan.0".toList then some (.flonum ⟨0x7FF8000000000000⟩)
  else if '/' ∈ s then
    match parseI64 (s.takeWhile (· != '/')), parseI64 ((s.dropWhile (· != '/')).drop 1) with
    | some num, some den =>
      if den.val = 0 then none
      else
        match Number.div ops.toDivisionOps (.fixnum num) (.fixnum den) with
        | .ok n => some n
        | .error _ => none
    | _, _ => none
  else if '.' ∈ s ∨ 'e' ∈ s ∨ 'E' ∈ s then (ops.parseF64 s).map .flonum
  else parseRadixInteger s 10

/-- The loop of `read_number`: the characters of the number and what follows. The last flag says
that the exponent marker was read just before, so that a sign belongs to it. -/
def scanNumber : (sawDot sawSlash sawExp signNext : Bool) → List Char → List Char × List Char
  | _, _, _, _, [] => ([], [])
  | dot, slash, exp, signNext, c :: s =>
    if signNext ∧ (c = '+' ∨ c = '-') then
      let p := scanNumber dot slash exp false s
      (c :: p.1, p.2)
    else if c.isDigit then
      let p := scanNumber dot slash exp false s
      (c :: p.1, p.2)
    else if c = '.' ∧ !dot ∧ !slash then
      let p := scanNumber true slash exp false s
      (c :: p.1, p.2)
    else if c = '/' ∧ !slash ∧ !dot then
      let p := scanNumber dot true exp false s
      (c :: p.1, p.2)
    else if (c = 'e' ∨ c = 'E') ∧ !exp then
      let p := scanNumber true slash true true s
      (c :: p.1, p.2)
    else ([], c :: s)

/-- A sign and what follows it. -/
def splitSign : List Char → List Char × List Char
  | '+' :: s => (['+'], s)
  | '-' :: s => (['-'], s)
  | s => ([], s)

/-- The special flonums without their sign. -/
def isSpecial (s : List Char) : Bool := s == "inf.0".toList || s == "nan.0".toList

/-- The number token of a text. -/
def numberToken (text rest : List Char) : Except LexError (Token × List Char) :=
  match parseNumber ops text with
  | some n => .ok (.number n, rest)
  | none => .error (.badNumber text)

/-- `read_number`; `lead` is what the token has taken before. -/
def readNumber (lead s : List Char) : Except LexError (Token × List Char) :=
  let sign := (splitSign s).1
  let body := (splitSign s).2
  if isSpecial (body.take 5) then numberToken ops (lead ++ sign ++ body.take 5) (body.drop 5)
  else
    let p := scanNumber false false false false body
    numberToken ops (lead ++ sign ++ p.1) p.2

/-- `read_radix_number`, after the radix marker. -/
def readRadixNumber (radix : ℕ) (s : List Char) : Except LexError (Token × List Char) :=
  let sign := (splitSign s).1
  let body := (splitSign s).2
  let valid : Char → Bool := fun c => c.isDigit && (Numeral.digitValue radix c).isSome ||
    radix == 16 && isHexDigit c
  let text := sign ++ body.takeWhile valid
  if text = [] ∨ text = ['+'] ∨ text = ['-'] then .error (.badNumber text)
  else
    match parseRadixInteger text radix with
    | some n => .ok (.number n, body.dropWhile valid)
    | none => .error (.badNumber text)

/-! ### Tokens -/

/-- `read_hash`, after the hash. -/
def readHash : List Char → Except LexError (Token × List Char)
  | 't' :: s => .ok (.boolean true, s)
  | 'f' :: s => .ok (.boolean false, s)
  | '(' :: s => .ok (.hashLParen, s)
  | ';' :: s => .ok (.hashSemi, s)
  | '\x5c' :: s => readCharacter s
  | 'x' :: s | 'X' :: s => readRadixNumber 16 s
  | 'b' :: s | 'B' :: s => readRadixNumber 2 s
  | 'o' :: s | 'O' :: s => readRadixNumber 8 s
  | 'd' :: s => readNumber ops "#d".toList s
  | 'D' :: s => readNumber ops "#D".toList s
  | 'u' :: '8' :: '(' :: s => .ok (.hashU8LParen, s)
  | ':' :: s => .ok (.identifier ('#' :: ':' :: takeName s), dropName s)
  | _ => .error (.unexpectedChar '#')

/-- A plus or a minus: a number if a digit, a point or a special flonum follows. -/
def readSign (c : Char) (s : List Char) : Except LexError (Token × List Char) :=
  match s with
  | [] => .ok (readIdentifier (c :: s))
  | next :: _ =>
    if next.isDigit || next == '.' then readNumber ops [] (c :: s)
    else if isSpecial (s.take 5) && (s.drop 5).head?.all isDelimiter then readNumber ops [] (c :: s)
    else .ok (readIdentifier (c :: s))

/-- A point: a number, a token of its own, or an identifier. -/
def readPoint (s : List Char) : Except LexError (Token × List Char) :=
  match s with
  | [] => .ok (.dot, [])
  | next :: _ =>
    if next.isDigit then readNumber ops [] ('.' :: s)
    else if isDelimiter next then .ok (.dot, s)
    else .ok (readIdentifier ('.' :: s))

/-- The token that begins with a character. -/
def tokenAt : List Char → Except LexError (Token × List Char)
  | [] => .ok (.eof, [])
  | '(' :: s => .ok (.lparen, s)
  | ')' :: s => .ok (.rparen, s)
  | '[' :: s => .ok (.lbracket, s)
  | ']' :: s => .ok (.rbracket, s)
  | '\x27' :: s => .ok (.quote, s)
  | '\x60' :: s => .ok (.quasiQuote, s)
  | ',' :: '@' :: s => .ok (.unquoteSplicing, s)
  | ',' :: s => .ok (.unquote, s)
  | '\x22' :: s => readString s
  | '#' :: s => readHash ops s
  | '+' :: s => readSign ops '+' s
  | '-' :: s => readSign ops '-' s
  | '.' :: s => readPoint ops s
  | '|' :: s => readPipeIdentifier s
  | c :: s =>
    if c.isDigit then readNumber ops [] (c :: s)
    else if isInitialIdent c then .ok (readIdentifier (c :: s))
    else .error (.unexpectedChar (Char.ofNat ((String.singleton c).toUTF8.toList.headD 0).toNat))

/-- **`next_token`.** -/
def nextToken (s : List Char) : Except LexError (Token × List Char) :=
  match skip .plain s with
  | .ok s => tokenAt ops s
  | .error e => .error e

end Numbers

end CrabScheme.Text
