import CrabScheme.Text.Writer

/-!
# Tokens of printed texts

Each token that the writer prints is read as the token it was printed for, whatever delimiter
follows: parentheses, booleans, strings, characters and integers.

## Main results

* `nextToken_string`, `nextToken_character`,
  `nextToken_decimal` — strings, characters and integers.
-/

namespace CrabScheme.Text

variable {ops : TextOps}

/-- What may follow a token: nothing, or a delimiter. -/
def Ends (rest : List Char) : Prop := ∀ c ∈ rest.head?, isDelimiter c = true

lemma nextToken_space (s : List Char) : nextToken ops (' ' :: s) = nextToken ops s := rfl

lemma nextToken_lparen (s : List Char) : nextToken ops ('(' :: s) = .ok (.lparen, s) := rfl

lemma nextToken_rparen (s : List Char) : nextToken ops (')' :: s) = .ok (.rparen, s) := rfl

lemma nextToken_vector (s : List Char) :
    nextToken ops ('#' :: '(' :: s) = .ok (.hashLParen, s) := rfl

lemma nextToken_boolean (b : Bool) (s : List Char) :
    nextToken ops ((if b then "#t".toList else "#f".toList) ++ s) = .ok (.boolean b, s) := by
  cases b <;> rfl

variable (ops) in
lemma nextToken_dot (s : List Char) :
    nextToken ops (" . ".toList ++ s) = .ok (.dot, ' ' :: s) := rfl

lemma scanQuoted_escapeString (s rest : List Char) :
    scanQuoted '\x22' stringEscape 0 (escapeString s ++ '\x22' :: rest) = .ok (s, rest) := by
  induction s with
  | nil => simp [escapeString, scanQuoted]
  | cons c s ih =>
    have hcons : escapeString (c :: s) = escapeChar c ++ escapeString s := by
      simp [escapeString]
    rw [hcons]
    unfold escapeChar
    split_ifs <;> simp_all [scanQuoted, stringEscape, Except.map]

lemma nextToken_string (s rest : List Char) :
    nextToken ops (('\x22' :: escapeString s ++ ['\x22']) ++ rest) = .ok (.string s, rest) := by
  simp [nextToken, skip, isAsciiWhitespace, tokenAt, readString, scanQuoted_escapeString, Except.map]

variable {rest sign : List Char} {c : Char}

lemma takeName_append {name : List Char} (hname : ∀ c ∈ name, isDelimiter c = false)
    (hrest : Ends rest) : takeName (name ++ rest) = name ∧ dropName (name ++ rest) = rest := by
  induction name with
  | nil =>
    cases rest with
    | nil => exact ⟨rfl, rfl⟩
    | cons c rest =>
      have hc : isDelimiter c = true := hrest c rfl
      simp [takeName, dropName, hc]
  | cons c name ih =>
    have hc : isDelimiter c = false := hname c (by simp)
    obtain ⟨htake, hdrop⟩ := ih fun d hd => hname d (List.mem_cons_of_mem _ hd)
    constructor
    · rw [List.cons_append, takeName, List.takeWhile_cons_of_pos (by simp [hc])]
      exact congrArg (c :: ·) htake
    · rw [List.cons_append, dropName, List.dropWhile_cons_of_pos (by simp [hc])]
      exact hdrop

lemma nextToken_characterName {d : Char} {name : List Char}
    (hname : name.all (fun c => !isDelimiter c) = true) (hrest : Ends rest)
    (hchar : characterOfName (c :: name) = some d) :
    nextToken ops ('#' :: '\x5c' :: c :: name ++ rest) = .ok (.character d, rest) := by
  obtain ⟨htake, hdrop⟩ := takeName_append (by simpa using hname) hrest
  simp [nextToken, skip, isAsciiWhitespace, tokenAt, readHash, readCharacter, htake, hdrop, hchar]

lemma namedCharacter_singleton (c : Char) : namedCharacter [c] = none := by
  have h : ∀ s : String, s.toList.length ≠ 1 → ([c] = s.toList) = False :=
    fun s hs => eq_false fun he => hs (he ▸ rfl)
  simp only [namedCharacter, h "space" (by decide), h "newline" (by decide), h "tab" (by decide),
    h "return" (by decide), h "nul" (by decide), h "null" (by decide), h "alarm" (by decide),
    h "backspace" (by decide), h "delete" (by decide), h "escape" (by decide), or_self, if_false]

lemma characterOfName_singleton (c : Char) : characterOfName [c] = some c := by
  unfold characterOfName
  rw [namedCharacter_singleton]
  unfold characterOfName.match_1
  -- the match asks first whether the character is an `x`
  by_cases hx : c = 'x'
  · subst hx
    rfl
  · exact dif_neg hx

lemma nextToken_character (c : Char) (hrest : Ends rest) :
    nextToken ops (characterText c ++ rest) = .ok (.character c, rest) := by
  unfold characterText
  split_ifs with h1 h2 h3 h4 h5
  · exact h1 ▸ nextToken_characterName (by decide) hrest (by decide)
  · exact h2 ▸ nextToken_characterName (by decide) hrest (by decide)
  · exact h3 ▸ nextToken_characterName (by decide) hrest (by decide)
  · exact h4 ▸ nextToken_characterName (by decide) hrest (by decide)
  · exact h5 ▸ nextToken_characterName (by decide) hrest (by decide)
  · exact nextToken_characterName rfl hrest (characterOfName_singleton c)

/-! #### Integers -/

lemma delimiter_cases {P : Char → Prop} [DecidablePred P] (hc : isDelimiter c = true)
    (h : [' ', '\t', '\n', '\x0c', '\r', '(', ')', '[', ']', '\x22', '\x27', '\x60', ',', ';'].all (fun d => decide (P d)) = true)
    : P c := by
  refine of_decide_eq_true (List.all_eq_true.mp h c ?_)
  simp only [isDelimiter, isAsciiWhitespace, Bool.or_eq_true, beq_iff_eq, List.contains_iff_mem,
    List.mem_cons] at hc
  simp only [List.mem_cons]
  tauto

lemma ne_of_class {p : Char → Bool} {d : Char} (hc : p c = true) (hd : p d = false) : c ≠ d := by
  rintro rfl
  simp_all

lemma scanNumber_append {ds s : List Char} (hds : ∀ c ∈ ds, c.isDigit = true)
    (dot slash exp : Bool) :
    scanNumber dot slash exp false (ds ++ s) =
      (ds ++ (scanNumber dot slash exp false s).1, (scanNumber dot slash exp false s).2) := by
  induction ds with
  | nil => rfl
  | cons c ds ih =>
    have hc : c.isDigit = true := hds c (by simp)
    simp [scanNumber, hc, ih fun d hd => hds d (List.mem_cons_of_mem _ hd)]

lemma scanNumber_of_ends (hrest : Ends rest) (dot slash exp : Bool) :
    scanNumber dot slash exp false rest = ([], rest) := by
  cases rest with
  | nil => rfl
  | cons c rest =>
    have hne : c.isDigit = false ∧ c ≠ '.' ∧ c ≠ '/' ∧ c ≠ 'e' ∧ c ≠ 'E' :=
      delimiter_cases (P := fun c => c.isDigit = false ∧ c ≠ '.' ∧ c ≠ '/' ∧ c ≠ 'e' ∧ c ≠ 'E')
        (hrest c rfl) (by decide)
    simp [scanNumber, hne]

lemma splitSign_of_isDigit (hsign : sign = [] ∨ sign = ['-']) (hc : c.isDigit = true)
    (s : List Char) : splitSign (sign ++ c :: s) = (sign, c :: s) := by
  rcases hsign with rfl | rfl
  · unfold splitSign
    split <;> simp_all
  · rfl

lemma readNumber_eq {body text : List Char} (hsign : sign = [] ∨ sign = ['-'])
    (hc : c.isDigit = true) (hscan : scanNumber false false false false (c :: body) = (text, rest))
    : readNumber ops [] (sign ++ c :: body) = numberToken ops (sign ++ text) rest := by
  have hspecial : isSpecial ((c :: body).take 5) = false := by
    have hi : c ≠ 'i' := ne_of_class hc rfl
    have hn : c ≠ 'n' := ne_of_class hc rfl
    simp [isSpecial, hi, hn]
  unfold readNumber
  simp only [splitSign_of_isDigit hsign hc, hspecial, Bool.false_eq_true, if_false, hscan,
    List.nil_append]

lemma parseNumber_of_digits {ds : List Char} (hsign : sign = [] ∨ sign = ['-'])
    (hds : Numeral.IsDigits ds)
    : parseNumber ops (sign ++ ds) = parseRadixInteger (sign ++ ds) 10 := by
  have hmem : ∀ c ∈ sign ++ ds, c.isDigit = true ∨ c = '-' := by
    intro c hc
    rcases List.mem_append.1 hc with h | h
    · rcases hsign with rfl | rfl <;> simp_all
    · exact .inl (hds.2 c h)
  have hnot : ∀ d : Char, d.isDigit = false → d ≠ '-' → d ∉ sign ++ ds := by
    intro d hd hne hd'
    rcases hmem d hd' with h | h <;> simp_all
  have hspecial : ∀ t : List Char, '0' ∈ t ∧ '.' ∈ t → sign ++ ds ≠ t := by
    rintro t ⟨-, ht⟩ rfl
    exact hnot '.' (by decide) (by decide) ht
  unfold parseNumber
  rw [if_neg (hspecial _ (by decide)), if_neg (hspecial _ (by decide)), if_neg, if_neg, if_neg]
  · simp only [not_or]
    exact ⟨hnot _ (by decide) (by decide), hnot _ (by decide) (by decide), hnot _ (by decide) (by decide)⟩
  · exact hnot _ (by decide) (by decide)
  · simp only [not_or]
    exact ⟨hspecial _ (by decide), hspecial _ (by decide)⟩

lemma skip_of_ne (s : List Char) (hhash : c ≠ '#') (hsemi : c ≠ ';')
    (hblank : isAsciiWhitespace c = false) : skip .plain (c :: s) = .ok (c :: s) := by
  unfold skip
  split <;> simp_all

lemma nextToken_of_isDigit (s : List Char) (hc : c.isDigit = true) :
    nextToken ops (c :: s) = readNumber ops [] (c :: s) := by
  have hne : ∀ d : Char, d.isDigit = false → c ≠ d := fun d hd => ne_of_class hc hd
  have hblank : isAsciiWhitespace c = false := by
    simp [isAsciiWhitespace, hne ' ' rfl, hne '\t' rfl, hne '\n' rfl, hne '\x0c' rfl, hne '\r' rfl]
  rw [nextToken, skip_of_ne s (hne _ rfl) (hne _ rfl) hblank]
  unfold tokenAt
  dsimp only
  split <;> simp_all

lemma numberToken_decimal (n : ℤ) (rest : List Char) :
    numberToken ops (Numeral.decimal n) rest = .ok (.number (Number.simplifyBigint n), rest) := by
  have hparse : parseNumber ops (Numeral.decimal n) = some (Number.simplifyBigint n) := by
    have hradix : parseRadixInteger (Numeral.decimal n) 10 = some (Number.simplifyBigint n) := by
      rw [parseRadixInteger, Numeral.parseInteger_decimal, Option.map_some]
    rcases Numeral.decimal_cases n with hds | ⟨ds, hn, hds⟩
    · exact (parseNumber_of_digits (.inl rfl) hds).trans hradix
    · rw [hn] at hradix ⊢
      exact (parseNumber_of_digits (.inr rfl) hds).trans hradix
  rw [numberToken, hparse]

lemma nextToken_of_minus (s : List Char) (hc : c.isDigit = true) :
    nextToken ops ('-' :: c :: s) = readNumber ops [] ('-' :: c :: s) := by
  simp [nextToken, skip, isAsciiWhitespace, tokenAt, readSign, hc]

lemma nextToken_of_decimal (n : ℤ) {s text : List Char}
    (hscan : scanNumber false false false false s = (text, rest)) :
    nextToken ops (Numeral.decimal n ++ s) = numberToken ops (Numeral.decimal n ++ text) rest := by
  have hread : ∀ {sign ds : List Char}, sign = [] ∨ sign = ['-'] → Numeral.IsDigits ds →
      readNumber ops [] (sign ++ (ds ++ s)) = numberToken ops (sign ++ (ds ++ text)) rest := by
    rintro sign ds hsign ⟨hne, hdigits⟩
    have hbody := scanNumber_append (s := s) hdigits false false false
    rw [hscan] at hbody
    obtain ⟨c, ds, rfl⟩ := List.exists_cons_of_ne_nil hne
    exact readNumber_eq hsign (hdigits c (by simp)) hbody
  rcases Numeral.decimal_cases n with hds | ⟨ds, hn, hds⟩
  · have hnum := hread (.inl rfl) hds
    obtain ⟨c, ds, hcons⟩ := List.exists_cons_of_ne_nil hds.1
    rw [hcons] at hnum hds ⊢
    rw [List.cons_append, nextToken_of_isDigit _ (hds.2 c (by simp))]
    exact hnum
  · have hnum := hread (.inr rfl) hds
    obtain ⟨c, ds, rfl⟩ := List.exists_cons_of_ne_nil hds.1
    rw [hn]
    exact (nextToken_of_minus _ (hds.2 c (by simp))).trans hnum

/-- **Integers**: the decimal text of an integer is read as that integer. -/
lemma nextToken_decimal (n : ℤ) (hrest : Ends rest) :
    nextToken ops (Numeral.decimal n ++ rest) = .ok (.number (Number.simplifyBigint n), rest) := by
  rw [nextToken_of_decimal n (scanNumber_of_ends hrest false false false), List.append_nil,
    numberToken_decimal]

end CrabScheme.Text
