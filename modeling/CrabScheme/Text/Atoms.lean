import CrabScheme.Text.Lengths

/-!
# Rationals, bytevectors and symbols

The writer prints the remaining atoms as they are, and what it prints is not always in the
lexer's language. The parts of a rational are read as machine integers; bytevectors are printed
with a prefix the lexer does not know; and a symbol is printed without bars, so that its name is
read back only if it is lexed as one identifier. This file says exactly which of these atoms
survive writing and reading.

For a symbol the question comes down to whether its name, as a text, is one identifier token of
the same name; that nothing else can give the name back follows from lengths.

## Main results

* `nextToken_identifier_iff` — the names that are lexed as themselves.
* `atom_reads_back_iff` — which atoms survive writing and reading.
-/

namespace CrabScheme.Text

open Expand (Datum rebuildListWithTail)
open Data (Object Store)

variable {ops : TextOps}

/-! ### Names that are lexed as themselves -/

/-- **The names that can be read back**: without a delimiter, and beginning with a letter or one of
the other initial characters, or with a sign or a point that does not open a number, or with the
`#:` of a keyword. -/
def readableName (name : List Char) : Bool :=
  name.all (!isDelimiter ·) &&
    match name with
    | [] => false
    | '#' :: ':' :: _ => true
    | '+' :: s | '-' :: s => !(s.head?.any fun c => c.isDigit || c == '.') && !isSpecial s
    | '.' :: c :: _ => !c.isDigit
    | c :: _ => isInitialIdent c

variable {s : List Char} {v : Data.Value} {l : List ℕ}

lemma takeName_eq_self : takeName s = s ↔ s.all (!isDelimiter ·) = true := by
  rw [takeName, List.takeWhile_eq_self_iff, List.all_eq_true]

lemma dropName_eq_nil (h : s.all (!isDelimiter ·) = true) : dropName s = [] := by
  have := takeName_dropName s
  rw [takeName_eq_self.2 h] at this
  exact List.eq_nil_of_length_eq_zero (by omega)

lemma isSpecial_take (h : s.all (!isDelimiter ·) = true) :
    (isSpecial (s.take 5) && (s.drop 5).head?.all isDelimiter) = isSpecial s := by
  cases hdrop : s.drop 5 with
  | nil =>
    have hs : s.take 5 = s := by
      rw [← List.take_append_drop 5 s, hdrop, List.append_nil, List.take_take, min_self]
    simp [hs]
  | cons c t =>
    have hc : isDelimiter c = false := by
      have hmem : c ∈ s := List.mem_of_mem_drop (hdrop ▸ List.mem_cons_self)
      simpa using List.all_eq_true.1 h c hmem
    have hlen : 5 < s.length := by
      have := congrArg List.length hdrop
      simp only [List.length_drop, List.length_cons] at this
      omega
    have hs : isSpecial s = false := by
      have hne : ∀ t : List Char, t.length = 5 → s ≠ t := by
        rintro t ht rfl
        omega
      simp [isSpecial, hne]
    simp [hc, hs]

lemma readIdentifier_eq_iff (s : List Char) :
    readIdentifier s = (.identifier s, []) ↔ s.all (!isDelimiter ·) = true := by
  rw [readIdentifier, Prod.mk.injEq, Token.identifier.injEq, takeName_eq_self]
  exact ⟨fun h => h.1, fun h => ⟨h, dropName_eq_nil h⟩⟩

lemma readNumber_ne_identifier (lead s name : List Char) :
    readNumber ops lead s ≠ .ok (.identifier name, []) := by
  intro h
  obtain ⟨-, n, hn⟩ := readNumber_length h
  cases hn

lemma readableName_hash (s : List Char) :
    readableName ('#' :: s) = (s.all (!isDelimiter ·) && s.head? == some ':') := by
  have hhash : isDelimiter '#' = false := by decide
  cases s with
  | nil => decide
  | cons c s =>
    by_cases hc : c = ':'
    · subst hc
      simp [readableName, hhash]
    · simp [readableName, hc, isInitialIdent]

lemma readRadixNumber_ne_identifier (radix : ℕ) (s name : List Char) :
    readRadixNumber radix s ≠ .ok (.identifier name, []) := by
  intro h
  obtain ⟨-, n, hn⟩ := readRadixNumber_length h
  cases hn

lemma readCharacter_ne_identifier (s name : List Char) :
    readCharacter s ≠ .ok (.identifier name, []) := by
  intro h
  obtain ⟨-, c, hc⟩ := readCharacter_length h
  cases hc

lemma readHash_identifier_iff (s : List Char) :
    readHash ops s = .ok (.identifier ('#' :: s), []) ↔ readableName ('#' :: s) = true := by
  rw [readableName_hash]
  unfold readHash
  split
  case h_15 s =>
    have hcolon : isDelimiter ':' = false := by decide
    simp only [Except.ok.injEq, Prod.mk.injEq, Token.identifier.injEq, List.cons.injEq,
      takeName_eq_self]
    simpa [hcolon] using fun h => dropName_eq_nil (by simpa using h)
  case h_16 _ _ _ _ _ _ _ _ _ _ _ _ _ _ hcolon =>
    have hhead : s.head? ≠ some ':' := fun h => by
      obtain ⟨t, rfl⟩ := List.head?_eq_some_iff.1 h
      exact hcolon t rfl
    simp [hhead]
  all_goals
    simp [readCharacter_ne_identifier, readRadixNumber_ne_identifier, readNumber_ne_identifier]

lemma readSign_identifier_iff {c : Char} (hc : c = '+' ∨ c = '-') (s : List Char) :
    readSign ops c s = .ok (.identifier (c :: s), []) ↔ readableName (c :: s) = true := by
  have hdelim : isDelimiter c = false := by rcases hc with rfl | rfl <;> decide
  cases s with
  | nil =>
    have hident : readIdentifier [c] = (.identifier [c], []) :=
      (readIdentifier_eq_iff [c]).2 (by simp [hdelim])
    exact iff_of_true (congrArg Except.ok hident) (by rcases hc with rfl | rfl <;> decide)
  | cons d s =>
    have hname : readableName (c :: d :: s) = ((d :: s).all (!isDelimiter ·) &&
        (!(d.isDigit || d == '.') && !isSpecial (d :: s))) := by
      rcases hc with rfl | rfl <;> rfl
    have hall : (c :: d :: s).all (!isDelimiter ·) = (d :: s).all (!isDelimiter ·) := by
      simp [hdelim]
    rw [hname]
    unfold readSign
    dsimp only
    split_ifs with hd hspecial
    · simp only [readNumber_ne_identifier, hd, Bool.not_true, Bool.false_and, Bool.and_false,
        Bool.false_eq_true]
    · by_cases hs : (d :: s).all (!isDelimiter ·) = true
      · rw [isSpecial_take hs] at hspecial
        simp only [readNumber_ne_identifier, hspecial, Bool.not_true, Bool.and_false,
          Bool.false_eq_true]
      · simp only [readNumber_ne_identifier, Bool.not_eq_true _ ▸ hs, Bool.false_and,
          Bool.false_eq_true]
    · rw [Except.ok.injEq, readIdentifier_eq_iff, hall]
      by_cases hs : (d :: s).all (!isDelimiter ·) = true
      · rw [isSpecial_take hs] at hspecial
        simp only [hs, hd, hspecial, Bool.not_false, Bool.and_self]
      · simp only [Bool.not_eq_true _ ▸ hs, Bool.false_and]

lemma readPoint_identifier_iff (s : List Char) :
    readPoint ops s = .ok (.identifier ('.' :: s), []) ↔ readableName ('.' :: s) = true := by
  cases s with
  | nil => simp [readPoint, readableName, isInitialIdent]
  | cons d s =>
    unfold readPoint
    dsimp only
    split_ifs with hd hdel
    · simp [readNumber_ne_identifier, readableName, hd]
    · simp [readableName, hdel]
    · rw [Except.ok.injEq, readIdentifier_eq_iff]
      simp [readableName, hd]

lemma isInitialIdent_of_isDigit {c : Char} (hc : c.isDigit = true) : isInitialIdent c = false := by
  have halpha : c.isAlpha = false := by
    have hle : c.val ≤ '9'.val := by
      simp only [Char.isDigit, Bool.and_eq_true, decide_eq_true_eq] at hc
      exact hc.2
    have hle' : c.val.toNat ≤ 57 := hle
    have hupper : ¬ 'A'.val ≤ c.val := fun h => by
      have : 65 ≤ c.val.toNat := h
      omega
    have hlower : ¬ 'a'.val ≤ c.val := fun h => by
      have : 97 ≤ c.val.toNat := h
      omega
    simp only [Char.isAlpha, Char.isUpper, Char.isLower, hupper, hlower, false_and,
      decide_false, Bool.false_and, Bool.or_self]
  have hne : ∀ d : Char, d.isDigit = false → c ≠ d := fun d hd => ne_of_class hc hd
  simp [isInitialIdent, halpha, hne '!' rfl, hne '$' rfl, hne '%' rfl, hne '&' rfl, hne '*' rfl,
    hne '/' rfl, hne ':' rfl, hne '<' rfl, hne '=' rfl, hne '>' rfl, hne '?' rfl, hne '^' rfl,
    hne '_' rfl, hne '~' rfl]

lemma tokenAt_identifier_iff (s : List Char) :
    tokenAt ops s = .ok (.identifier s, []) ↔ readableName s = true := by
  unfold tokenAt
  split
  case h_10 s =>
    have hread : readString s ≠ .ok (.identifier ('\x22' :: s), []) := by
      intro h
      obtain ⟨⟨t, ht⟩, -⟩ := readString_length h
      cases ht
    simp [hread, readableName, isDelimiter]
  case h_11 s => exact readHash_identifier_iff s
  case h_12 s => exact readSign_identifier_iff (.inl rfl) s
  case h_13 s => exact readSign_identifier_iff (.inr rfl) s
  case h_14 s => exact readPoint_identifier_iff s
  case h_15 s =>
    have hread : readPipeIdentifier s ≠ .ok (.identifier ('|' :: s), []) := by
      intro h
      obtain ⟨name, hname, hlt⟩ := readPipeIdentifier_length h
      cases hname
      simp only [List.length_cons] at hlt
      omega
    simp [hread, readableName, isInitialIdent]
  case h_16 c s _ _ _ _ _ _ _ _ _ hhash hplus hminus hpoint _ =>
    have hname : readableName (c :: s) = ((c :: s).all (!isDelimiter ·) && isInitialIdent c) := by
      unfold readableName
      split <;> simp_all
    rw [hname]
    split_ifs with hdigit hinitial
    · have hinitial : isInitialIdent c = false := isInitialIdent_of_isDigit hdigit
      simp [readNumber_ne_identifier, hinitial]
    · rw [Except.ok.injEq, readIdentifier_eq_iff, hinitial, Bool.and_true]
    · simp [hinitial]
  all_goals simp [readableName, isDelimiter]

lemma skip_of_readableName (h : readableName s = true) : skip .plain s = .ok s := by
  cases s with
  | nil => simp [readableName] at h
  | cons c s =>
    by_cases hc : c = '#'
    · subst hc
      rw [readableName_hash, Bool.and_eq_true, beq_iff_eq] at h
      obtain ⟨t, rfl⟩ := List.head?_eq_some_iff.1 h.2
      simp [skip, isAsciiWhitespace]
    · have hdelim : isDelimiter c = false := by
        simp only [readableName, List.all_cons, Bool.and_eq_true, Bool.not_eq_true'] at h
        exact h.1.1
      have hsemi : c ≠ ';' := by
        rintro rfl
        exact absurd hdelim (by decide)
      refine skip_of_ne s hc hsemi ?_
      simp only [isDelimiter, Bool.or_eq_false_iff] at hdelim
      exact hdelim.1

/-- **The names that are lexed as themselves.** -/
lemma nextToken_identifier_iff (s : List Char) :
    (∃ rest, nextToken ops s = .ok (.identifier s, rest)) ↔ readableName s = true := by
  constructor
  · rintro ⟨rest, h⟩
    have hlen := (nextToken_fits h).name_le s rfl
    obtain rfl : rest = [] := List.eq_nil_of_length_eq_zero (by omega)
    unfold nextToken at h
    split at h
    · rename_i t ht
      -- nothing was skipped: the name is as long as the text
      have hts := skip_suffix ht
      have htlen := (tokenAt_fits h).name_le s rfl
      obtain rfl : t = s := hts.eq_of_length_le (by omega)
      exact (tokenAt_identifier_iff t).1 h
    · cases h
  · intro h
    refine ⟨[], ?_⟩
    rw [nextToken, skip_of_readableName h]
    exact (tokenAt_identifier_iff s).2 h

/-! ### Rationals -/

lemma parseI64_decimal (n : ℤ) : parseI64 (Numeral.decimal n) = I64.checked n := by
  rw [parseI64, Numeral.parseInteger_decimal, Option.bind_some]

lemma slash_notMem_decimal (n : ℤ) : '/' ∉ Numeral.decimal n := by
  have hdigits : ∀ {s : List Char}, Numeral.IsDigits s → '/' ∉ s :=
    fun hs hmem => absurd (hs.2 _ hmem) (by decide)
  rcases Numeral.decimal_cases n with hs | ⟨s, hn, hs⟩
  · exact hdigits hs
  · rw [hn, List.mem_cons, not_or]
    exact ⟨by decide, hdigits hs⟩

lemma isDigits_decimal_natCast (n : ℕ) : Numeral.IsDigits (Numeral.decimal n) := by
  exact Numeral.isDigits_toDigits _

lemma parseNumber_rational (q : ℚ) :
    parseNumber ops (Numeral.decimal q.num ++ '/' :: Numeral.decimal q.den) =
      (I64.checked q.num).bind fun _ => (I64.checked q.den).map fun _ =>
        Number.simplifyRational q := by
  have hmem : '/' ∈ Numeral.decimal q.num ++ '/' :: Numeral.decimal q.den := by simp
  have hne : ∀ t : List Char, '/' ∉ t → Numeral.decimal q.num ++ '/' :: Numeral.decimal q.den ≠ t :=
    fun t ht heq => ht (heq ▸ hmem)
  have hall : ∀ c ∈ Numeral.decimal q.num, (c != '/') = true := fun c hc =>
    bne_iff_ne.2 fun heq => slash_notMem_decimal q.num (heq ▸ hc)
  rw [parseNumber, if_neg (hne _ (by decide)), if_neg (hne _ (by decide)),
    if_neg (not_or.2 ⟨hne _ (by decide), hne _ (by decide)⟩), if_pos hmem,
    List.takeWhile_append_of_pos hall, List.dropWhile_append_of_pos hall]
  simp only [List.takeWhile_cons, List.dropWhile_cons, bne_self_eq_false, Bool.false_eq_true,
    if_false, List.append_nil, List.drop_one, List.tail_cons, parseI64_decimal]
  cases hnum : I64.checked q.num with
  | none => rfl
  | some num =>
    cases hden : I64.checked q.den with
    | none => rfl
    | some den =>
      have hden' : den.val = q.den := I64.val_of_checked hden
      have hne0 : den.val ≠ 0 := by
        rw [hden']
        exact_mod_cast q.den_nz
      have hq : (num.val : ℚ) / den.val = q := by
        rw [I64.val_of_checked hnum, hden']
        exact q.num_div_den
      simp [Number.div, Number.isZero, Number.toRational, hne0, hq]

variable (ops) in
lemma nextToken_rational (q : ℚ) :
    nextToken ops (displayNumber ops (.rat q)) = numberToken ops (displayNumber ops (.rat q)) [] := by
  obtain ⟨-, hdigits⟩ := isDigits_decimal_natCast q.den
  have hscan : scanNumber false false false false ('/' :: Numeral.decimal q.den) =
      ('/' :: Numeral.decimal q.den, []) := by
    have hden := scanNumber_append (s := []) hdigits false true false
    simp only [List.append_nil] at hden
    simp [scanNumber, hden]
  exact nextToken_of_decimal q.num hscan

/-! ### Writing and reading back -/

/-- **Reading back what was written**: `write` prints a text for the value, and reading that text
gives an `equal?` value. -/
def ReadsBack (ops : TextOps) (syms : SymbolTable) (h : Store) (v : Data.Value) : Prop :=
  ∃ text, (∃ n, ∀ m ≥ n, ∃ visited, writeTo ops syms h .write m [] v = some (text, visited)) ∧
    ∃ d r, (∃ n, ∀ m ≥ n, read ops m ⟨text, none⟩ = .ok (some d, r)) ∧
      Data.Equal ops.toFlonumOps (toValue d syms h).2.2 v (toValue d syms h).1

variable {syms : SymbolTable} {h : Store}

lemma readsBack_iff {d : Datum} (hd : Denotes syms h d v l) (hl : l.Nodup)
    : ReadsBack ops syms h v ↔
      ∃ d' r, (∃ n, ∀ m ≥ n, read ops m ⟨textAs ops false d, none⟩ = .ok (some d', r)) ∧
        Data.Equal ops.toFlonumOps (toValue d' syms h).2.2 v (toValue d' syms h).1 := by
  obtain ⟨n, hn⟩ := prints_of_denotes hd hl
  constructor
  · rintro ⟨text, ⟨k, hk⟩, hread⟩
    obtain ⟨visited, hwrite⟩ := hk (n + k) (by omega)
    obtain ⟨visited', hwrite'⟩ := hn (n + k) (by omega)
    rw [hwrite, Option.some.injEq, Prod.mk.injEq] at hwrite'
    rwa [hwrite'.1] at hread
  · exact fun hread => ⟨_, ⟨n, hn⟩, hread⟩

lemma read_of_error {e : LexError} (hs : nextToken ops s = .error e) (n : ℕ) :
    read ops (n + 1) ⟨s, none⟩ = .error (.lex e) := by
  simp [read, Reader.nextTok, hs, bind, Except.bind]

lemma read_number {rest : List Char} {m : Number} (hs : nextToken ops s = .ok (.number m, rest))
    (n : ℕ) : read ops (n + 2) ⟨s, none⟩ = .ok (some (.number m), ⟨rest, none⟩) := by
  simp [read, Reader.nextTok, hs, bind, Except.bind, readToken]

lemma read_identifier {rest name : List Char} (hs : nextToken ops s = .ok (.identifier name, rest))
    (n : ℕ) :
    read ops (n + 2) ⟨s, none⟩ = .ok (some (.symbol (String.ofList name)), ⟨rest, none⟩) := by
  simp [read, Reader.nextTok, hs, bind, Except.bind, readToken]

lemma rational_readsBack_iff (ops : TextOps) (syms : SymbolTable) (h : Store) (q : ℚ) :
    ReadsBack ops syms h (.number (.rat q)) ↔
      (I64.checked q.num).isSome = true ∧ (I64.checked q.den).isSome = true := by
  have hd : Denotes syms h (.number (.rat q)) (.number (.rat q)) [] := ⟨rfl, rfl⟩
  have htext : textAs ops false (.number (.rat q)) = displayNumber ops (.rat q) := rfl
  rw [readsBack_iff hd List.nodup_nil]
  have htok := nextToken_rational ops q
  rw [numberToken, displayNumber, parseNumber_rational] at htok
  cases hnum : I64.checked q.num with
  | none =>
    rw [hnum] at htok
    refine iff_of_false ?_ (by simp)
    rintro ⟨d', r, ⟨n, hn⟩, -⟩
    cases (hn (n + 1) (by omega)).symm.trans (read_of_error htok n)
  | some num =>
    cases hden : I64.checked q.den with
    | none =>
      rw [hnum, hden] at htok
      refine iff_of_false ?_ (by simp)
      rintro ⟨d', r, ⟨n, hn⟩, -⟩
      cases (hn (n + 1) (by omega)).symm.trans (read_of_error htok n)
    | some den =>
      rw [hnum, hden] at htok
      refine iff_of_true ⟨.number (Number.simplifyRational q), ⟨[], none⟩, ⟨2, fun m hm => ?_⟩, ?_⟩
        ⟨rfl, rfl⟩
      · obtain ⟨m, rfl⟩ := Nat.exists_eq_add_of_le' hm
        exact read_number htok m
      · have hq : (Number.rat q).toRational = some q := rfl
        have hq' := Number.toRational_simplifyRational q
        have heqv : (Data.Value.number (.rat q)).eqv ops.toFlonumOps
            (.number (Number.simplifyRational q)) = true := by
          simp [Data.Value.eqv, Data.Value.asNumber, hq, hq', Number.eqValue_of_toRational hq hq']
        obtain ⟨n, hn⟩ := compares_of_eqv heqv
        exact ⟨n, hn n le_rfl [] 64⟩

lemma byteVector_not_readsBack (ops : TextOps) {bs : List UInt8}
    (hd : Denotes syms h (.byteVector bs) v l) : ¬ ReadsBack ops syms h v := by
  obtain ⟨a, rfl, ha, rfl⟩ := hd
  rw [readsBack_iff (d := .byteVector bs) ⟨a, rfl, ha, rfl⟩ List.nodup_nil]
  rintro ⟨d', r, ⟨n, hn⟩, -⟩
  have htok : nextToken ops (textAs ops false (.byteVector bs)) = .error (.unexpectedChar '#') := rfl
  exact nomatch (hn (n + 1) (by omega)).symm.trans (read_of_error htok n)

lemma eq_of_equal_symbol {fp : FlonumOps} {i : Symbol} {w : Data.Value}
    (heq : Data.Equal fp h (.symbol i) w) : w = .symbol i := by
  obtain ⟨n, visited, hrec⟩ := heq
  cases n with
  | zero => simp [Data.equalRec] at hrec
  | succ n =>
    unfold Data.equalRec at hrec
    split at hrec
    · cases w <;> simp_all [Data.Value.eqv, Data.Value.asNumber, Data.Value.eq]
    · simp at hrec

lemma eq_symbol_of_toValue {d : Datum} {i : Symbol} {name : String}
    (hi : syms.name i = some name) (hd : (toValue d syms h).1 = .symbol i) : d = .symbol name := by
  cases d with
  | symbol s =>
    have hs : (syms.intern s).1 = i := by simpa [toValue] using hd
    obtain ⟨hkeep, hname⟩ := names_intern syms s
    have hi' : (syms.intern s).2.name i = some name := getElem?_of_isPrefix hkeep hi
    rw [hs, hi', Option.some.injEq] at hname
    rw [hname]
  | _ => simp [toValue] at hd

lemma symbol_readsBack_iff (ops : TextOps) {name : String} (hd : Denotes syms h (.symbol name) v l)
    : ReadsBack ops syms h v ↔ readableName name.toList = true := by
  obtain ⟨i, rfl, hi, rfl⟩ := hd
  have htext : textAs ops false (.symbol name) = name.toList := rfl
  rw [readsBack_iff (d := .symbol name) ⟨i, rfl, hi, rfl⟩ List.nodup_nil]
  constructor
  · rintro ⟨d', r, ⟨n, hn⟩, heq⟩
    obtain rfl := eq_symbol_of_toValue hi (eq_of_equal_symbol heq)
    -- the reader cannot get the whole name but from one identifier
    rcases ((ReadsWithin.all ops n).read (hn n le_rfl)).2 name rfl with htok | hlt
    · exact (nextToken_identifier_iff _).1 htok
    · exact absurd hlt (lt_irrefl _)
  · intro hname
    obtain ⟨rest, htok⟩ := (nextToken_identifier_iff _).2 hname
    refine ⟨.symbol name, ⟨rest, none⟩, ⟨2, fun m hm => ?_⟩, ?_⟩
    · obtain ⟨m, rfl⟩ := Nat.exists_eq_add_of_le' hm
      have hread := read_identifier htok m
      rwa [String.ofList_toList] at hread
    · have hintern : (toValue (.symbol name) syms h).1 = .symbol i := by
        rw [toValue, SymbolTable.intern_name hi]
      rw [hintern]
      obtain ⟨n, hn⟩ := compares_of_eqv
        (v := .symbol i) (w := .symbol i)
        (by simp [Data.Value.eqv, Data.Value.asNumber, Data.Value.eq])
      exact ⟨n, hn n le_rfl [] 64⟩

/-! ### The atoms -/

/-- The atoms beside those of `Plain` data. -/
inductive Atom
  | rational (q : ℚ)
  | byteVector (bytes : List UInt8)
  | symbol (name : String)

namespace Atom

/-- The datum of an atom. -/
def datum : Atom → Datum
  | rational q => .number (.rat q)
  | byteVector bytes => .byteVector bytes
  | symbol name => .symbol name

/-- **The atoms that survive**: rationals whose parts are machine integers, and symbols whose name
is lexed as one identifier. -/
def Readable : Atom → Bool
  | rational q => (I64.checked q.num).isSome && (I64.checked q.den).isSome
  | byteVector _ => false
  | symbol name => readableName name.toList

end Atom

/-- **Which atoms survive writing and reading.** A value that is a rational, a bytevector or a
symbol is read back from its text just if it is readable. -/
theorem atom_reads_back_iff (ops : TextOps) (syms : SymbolTable) (h : Store) (a : Atom)
    (v : Data.Value) (l : List ℕ) (hd : Denotes syms h a.datum v l) :
    ReadsBack ops syms h v ↔ a.Readable = true := by
  cases a with
  | rational q =>
    obtain ⟨rfl, -⟩ := hd
    rw [rational_readsBack_iff, Atom.Readable, Bool.and_eq_true]
  | byteVector bytes => exact iff_of_false (byteVector_not_readsBack ops hd) (by simp [Atom.Readable])
  | symbol name => exact symbol_readsBack_iff ops hd

/-- The symbol `ab` is read back. -/
theorem atom_reads_back_symbol :
    Denotes ⟨["ab"], List.nodup_singleton _⟩ [] (Atom.symbol "ab").datum (.symbol ⟨0⟩) [] ∧
      (ReadsBack TextOps.coarse ⟨["ab"], List.nodup_singleton _⟩ [] (.symbol ⟨0⟩) ↔
        (Atom.symbol "ab").Readable = true) := by
  have hd : Denotes ⟨["ab"], List.nodup_singleton _⟩ [] (Atom.symbol "ab").datum (.symbol ⟨0⟩) [] :=
    ⟨⟨0⟩, rfl, rfl, rfl⟩
  exact ⟨hd, atom_reads_back_iff _ _ _ _ _ _ hd⟩

/-- Not read back: the rational `9223372036854775808/3`, the empty bytevector, and the symbol whose
name is `a b`. -/
theorem atoms_not_read_back :
    ¬ ReadsBack TextOps.coarse SymbolTable.empty [] (.number (.rat (2 ^ 63 / 3))) ∧
      ¬ ReadsBack TextOps.coarse SymbolTable.empty [.byteVector []] (.byteVector 0) ∧
      ¬ ReadsBack TextOps.coarse ⟨["a b"], List.nodup_singleton _⟩ [] (.symbol ⟨0⟩) := by
  refine ⟨?_, ?_, ?_⟩
  · rw [rational_readsBack_iff]
    decide +kernel
  · exact byteVector_not_readsBack _ ⟨0, rfl, rfl, rfl⟩
  · rw [symbol_readsBack_iff _ ⟨⟨0⟩, rfl, rfl, rfl⟩]
    decide

end CrabScheme.Text
