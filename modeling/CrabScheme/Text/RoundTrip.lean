import CrabScheme.Text.Tokens

/-!
# Reading back what was written

A tree-shaped datum of booleans, exact integers, characters, strings, the empty list, pairs and
vectors is written as a text from which the reader gets an `equal?` value back, and it stops
right after the text. The only change on the way is that an integer comes back in its smallest
representation.

## Main results

* `reads_of_plain` — the text of a datum is read as the normalized datum.
* `compares_of_denotes` — a datum is `equal?` to its normalized form.
* `read_write` — the round trip.
-/

namespace CrabScheme.Text

open Expand (Datum rebuildListWithTail)
open Data (Object Store)

variable {ops : TextOps}

/-! ### Reading -/

lemma read_peeked {text rest : List Char} {tok : Token} (n : ℕ)
    (htok : nextToken ops text = .ok (tok, rest)) :
    read ops n ⟨rest, some tok⟩ = read ops n ⟨text, none⟩ := by
  cases n with
  | zero => rfl
  | succ n => simp [read, Reader.nextTok, htok]

lemma token_of_read {n : ℕ} {s : List Char} {d : Datum} {r : Reader}
    (hread : read ops n ⟨s, none⟩ = .ok (some d, r)) :
    ∃ tok rest, nextToken ops s = .ok (tok, rest) ∧
      tok ≠ .rparen ∧ tok ≠ .rbracket ∧ tok ≠ .dot ∧ tok ≠ .eof := by
  cases n with
  | zero => simp [read] at hread
  | succ n =>
    rw [read] at hread
    cases htok : nextToken ops s with
    | error e => simp [Reader.nextTok, htok, bind, Except.bind] at hread
    | ok p =>
      obtain ⟨tok, rest⟩ := p
      refine ⟨tok, rest, rfl, ?_⟩
      refine ⟨?_, ?_, ?_, ?_⟩ <;> rintro rfl <;>
        cases n <;> simp [Reader.nextTok, htok, bind, Except.bind, readToken] at hread

lemma read_space (n : ℕ) (s : List Char) :
    read ops n ⟨' ' :: s, none⟩ = read ops n ⟨s, none⟩ := by
  cases n with
  | zero => rfl
  | succ n => simp [read, Reader.nextTok, nextToken_space]

lemma readVector_space (n : ℕ) (items : List Datum) (s : List Char) :
    readVector ops n items ⟨' ' :: s, none⟩ = readVector ops n items ⟨s, none⟩ := by
  cases n with
  | zero => rfl
  | succ n => simp [readVector, Reader.peekTok, nextToken_space]

lemma readList_item {m : ℕ} {s s' : List Char} {d : Datum} (items : List Datum)
    (hread : read ops m ⟨s, none⟩ = .ok (some d, ⟨s', none⟩)) :
    readList ops (m + 1) items ⟨s, none⟩ = readList ops m (items ++ [d]) ⟨s', none⟩ := by
  obtain ⟨tok, rest, htok, h1, h2, h3, h4⟩ := token_of_read hread
  rw [readList]
  simp only [Reader.peekTok, bind, Except.bind]
  cases tok <;> simp_all [read_peeked m htok]

lemma readVector_item {m : ℕ} {s s' : List Char} {d : Datum} (items : List Datum)
    (hread : read ops m ⟨s, none⟩ = .ok (some d, ⟨s', none⟩)) :
    readVector ops (m + 2) items ⟨s, none⟩ = readVector ops (m + 1) (items ++ [d]) ⟨s', none⟩ := by
  obtain ⟨tok, rest, htok, h1, h2, h3, h4⟩ := token_of_read hread
  have hrequired : readRequired ops (m + 1) ⟨rest, some tok⟩ = .ok (d, ⟨s', none⟩) := by
    rw [readRequired, read_peeked m htok, hread]
    rfl
  rw [readVector]
  simp only [Reader.peekTok, bind, Except.bind]
  cases tok <;> simp_all

lemma readList_close (m : ℕ) (items : List Datum) (rest : List Char) :
    readList ops (m + 1) items ⟨')' :: rest, none⟩ =
      .ok (rebuildListWithTail items .null, ⟨rest, none⟩) := by
  simp [readList, Reader.peekTok, Reader.nextTok, nextToken_rparen, bind, Except.bind]

lemma readVector_close (m : ℕ) (items : List Datum) (rest : List Char) :
    readVector ops (m + 1) items ⟨')' :: rest, none⟩ = .ok (.vector items, ⟨rest, none⟩) := by
  simp [readVector, Reader.peekTok, Reader.nextTok, nextToken_rparen, bind, Except.bind]

lemma readList_dotted {m : ℕ} {text rest : List Char} {d : Datum} (items : List Datum)
    (hread : read ops m ⟨text ++ ')' :: rest, none⟩ = .ok (some d, ⟨')' :: rest, none⟩)) :
    readList ops (m + 2) items ⟨dotted true text ++ rest, none⟩ =
      .ok (rebuildListWithTail items d, ⟨rest, none⟩) := by
  have hdot : nextToken ops (dotted true text ++ rest) =
      .ok (.dot, ' ' :: (text ++ ')' :: rest)) := by
    have := nextToken_dot ops (text ++ ')' :: rest)
    simpa [dotted] using this
  rw [readList]
  simp [Reader.peekTok, hdot, Reader.nextTok, bind, Except.bind, readRequired, read_space,
    hread, nextToken_rparen]


/-! ### Data -/

/-- The integer an exact integer stands for. -/
def integerOf : Number → Option ℤ
  | .fixnum n => some n.val
  | .big n => some n
  | _ => none

mutual

/-- **Plain data**: booleans, exact integers, characters, strings, the empty list, pairs and
vectors. -/
def Plain : Datum → Prop
  | .boolean _ | .character _ | .string _ | .null => True
  | .number n => (integerOf n).isSome = true
  | .pair x y => Plain x ∧ Plain y
  | .vector xs => AllPlain xs
  | .symbol _ | .byteVector _ => False

/-- Plain items. -/
def AllPlain : List Datum → Prop
  | [] => True
  | d :: ds => Plain d ∧ AllPlain ds

end

/-- An integer in its smallest representation. -/
def normalizeNumber (n : Number) : Number :=
  match integerOf n with
  | some k => Number.simplifyBigint k
  | none => n

mutual

/-- A datum with its integers in their smallest representation. -/
def normalize : Datum → Datum
  | .number n => .number (normalizeNumber n)
  | .pair x y => .pair (normalize x) (normalize y)
  | .vector xs => .vector (normalizeAll xs)
  | d => d

/-- Items with their integers in their smallest representation. -/
def normalizeAll : List Datum → List Datum
  | [] => []
  | d :: ds => normalize d :: normalizeAll ds

end

variable (ops) in
/-- A text is read as a datum, whatever follows it. -/
def ReadsAs (text : List Char) (d : Datum) : Prop :=
  ∃ n, ∀ m ≥ n, ∀ rest, Ends rest → read ops m ⟨text ++ rest, none⟩ = .ok (some d, ⟨rest, none⟩)

variable (ops) in
/-- A text ends a list that has some items, with `d` as what follows them. -/
def ClosesAs (text : List Char) (d : Datum) : Prop :=
  ∃ n, ∀ m ≥ n, ∀ items rest, readList ops m items ⟨text ++ rest, none⟩ =
    .ok (rebuildListWithTail items d, ⟨rest, none⟩)

variable (ops) in
/-- A text and a closing parenthesis end a vector that has some items, with `ds` as the others. -/
def ClosesVectorAs (text : List Char) (ds : List Datum) : Prop :=
  ∃ n, ∀ m ≥ n, ∀ items rest, readVector ops m items ⟨text ++ ')' :: rest, none⟩ =
    .ok (.vector (items ++ ds), ⟨rest, none⟩)

lemma ends_cons {c : Char} {rest : List Char} (hc : isDelimiter c = true) : Ends (c :: rest) := by
  intro d hd
  obtain rfl : c = d := by simpa using hd
  exact hc

lemma readsAs_of_token {text : List Char} {tok : Token} {d : Datum}
    (htok : ∀ rest, Ends rest → nextToken ops (text ++ rest) = .ok (tok, rest))
    (hd : ∀ n r, readToken ops (n + 1) tok r = .ok (d, r)) (heof : tok ≠ .eof)
    (hsemi : tok ≠ .hashSemi) : ReadsAs ops text d := by
  refine deep 2 fun m rest hrest => ?_
  rw [read]
  simp only [Reader.nextTok, bind, Except.bind]
  cases tok <;> simp_all

lemma closesAs_of_readsAs {text : List Char} {d : Datum} (h : ReadsAs ops text d) :
    ClosesAs ops (dotted true text) d :=
  deep_of 2 h fun _ hread items _ => readList_dotted items (hread _ (ends_cons (by decide)))

lemma reads_atom {text : List Char} {d : Datum} (h : ReadsAs ops text d) :
    ReadsAs ops (dotted false text) d ∧ ClosesAs ops (dotted true text) d :=
  ⟨h, closesAs_of_readsAs h⟩

lemma reads_pair {tx ty : List Char} {x y : Datum} (hx : ReadsAs ops tx x)
    (hy : ClosesAs ops ty y) (hends : ∀ rest, Ends (ty ++ rest)) :
    ReadsAs ops ('(' :: tx ++ ty) (.pair x y) ∧ ClosesAs ops (' ' :: tx ++ ty) (.pair x y) := by
  constructor
  · refine deep_of₂ 3 hx hy fun m hx hy rest _ => ?_
    rw [read]
    simp only [List.cons_append, List.append_assoc, Reader.nextTok, nextToken_lparen, bind,
      Except.bind, readToken, readList_item [] (hx (ty ++ rest) (hends rest)), hy]
    rfl
  · refine deep_of₂ 1 hx hy fun m hx hy items rest => ?_
    have hcar : read ops m ⟨' ' :: (tx ++ (ty ++ rest)), none⟩ =
        .ok (some x, ⟨ty ++ rest, none⟩) := by
      rw [read_space, hx (ty ++ rest) (hends rest)]
    rw [List.cons_append, List.cons_append, List.append_assoc, readList_item items hcar, hy,
      Expand.rebuildListWithTail_append]
    rfl

lemma reads_vector {text : List Char} {ds : List Datum} (h : ClosesVectorAs ops text ds) :
    ReadsAs ops ('#' :: '(' :: text ++ [')']) (.vector ds) := by
  refine deep_of 2 h fun m hclose rest _ => ?_
  rw [read]
  simp [Reader.nextTok, nextToken_vector, bind,
    Except.bind, readToken, hclose]

lemma closesVector_singleton {text : List Char} {d : Datum} (h : ReadsAs ops text d) :
    ClosesVectorAs ops text [d] := by
  refine deep_of 2 h fun m hread items rest => ?_
  rw [readVector_item items (hread _ (ends_cons (by decide))), readVector_close]

lemma closesVector_cons {t1 t2 : List Char} {d : Datum} {ds : List Datum}
    (hd : ReadsAs ops t1 d) (hds : ClosesVectorAs ops t2 ds) :
    ClosesVectorAs ops (t1 ++ ' ' :: t2) (d :: ds) := by
  refine deep_of₂ 2 hd (deep_succ hds) fun m hread hclose items rest => ?_
  rw [List.append_assoc, List.cons_append, readVector_item items (hread _ (ends_cons (by decide))),
    readVector_space, hclose, List.append_assoc, List.singleton_append]

lemma ends_tail (d : Datum) (rest : List Char) : Ends (textAs ops true d ++ rest) := by
  cases d <;> exact ends_cons (by decide)

lemma displayNumber_of_integer {n : Number} {k : ℤ} (hk : integerOf n = some k) :
    displayNumber ops n = Numeral.decimal k := by
  cases n <;> simp_all [integerOf, displayNumber]

lemma normalize_number {n : Number} {k : ℤ} (hk : integerOf n = some k) :
    normalize (.number n) = .number (Number.simplifyBigint k) := by
  simp [normalize, normalizeNumber, hk]

mutual

/-- **The text of a plain datum is read as the normalized datum**, on its own and as what ends
a list. -/
lemma reads_of_plain : ∀ d : Datum, Plain d →
    ReadsAs ops (textAs ops false d) (normalize d) ∧
      ClosesAs ops (textAs ops true d) (normalize d)
  | .null, _ => by
    constructor
    · refine deep 3 fun m rest _ => ?_
      simp [textAs, read, Reader.nextTok, nextToken_lparen, bind, Except.bind, readToken,
        readList_close, normalize]
    · exact deep 1 readList_close
  | .boolean b, _ => reads_atom (readsAs_of_token (fun rest _ => nextToken_boolean b rest)
      (fun _ _ => rfl) (by simp) (by simp))
  | .number n, hn => by
    obtain ⟨k, hk⟩ := Option.isSome_iff_exists.1 hn
    simp only [textAs, displayNumber_of_integer hk, normalize_number hk]
    exact reads_atom (readsAs_of_token (fun rest hrest => nextToken_decimal k hrest)
      (fun _ _ => rfl) (by simp) (by simp))
  | .character c, _ => reads_atom (readsAs_of_token (fun rest hrest => nextToken_character c hrest)
      (fun _ _ => rfl) (by simp) (by simp))
  | .string s, _ => reads_atom (readsAs_of_token (fun rest _ => nextToken_string s.toList rest)
      (fun _ _ => by simp [readToken, normalize]) (by simp) (by simp))
  | .pair x y, hxy =>
    reads_pair (reads_of_plain x hxy.1).1 (reads_of_plain y hxy.2).2 (ends_tail y)
  | .vector xs, hxs => reads_atom (reads_vector (closesVector_of_plain xs hxs))

lemma closesVector_of_plain : ∀ ds : List Datum, AllPlain ds →
    ClosesVectorAs ops (itemsText ops ds) (normalizeAll ds)
  | [], _ => by
    refine deep 1 fun m items rest => ?_
    rw [normalizeAll, List.append_nil]
    exact readVector_close m items rest
  | [d], hd => closesVector_singleton (reads_of_plain d hd.1).1
  | d :: e :: ds, hds =>
    closesVector_cons (reads_of_plain d hds.1).1 (closesVector_of_plain (e :: ds) hds.2)

end

/-! ### Values -/

section Values

variable {syms syms' : SymbolTable} {h h' : Store}

lemma getElem?_of_isPrefix {α : Type} {xs ys : List α} (hxy : xs <+: ys) {i : ℕ} {x : α}
    (hx : xs[i]? = some x) : ys[i]? = some x := by
  obtain ⟨zs, rfl⟩ := hxy
  obtain ⟨hlt, -⟩ := List.getElem?_eq_some_iff.1 hx
  rw [List.getElem?_append_left hlt, hx]

mutual

lemma denotes_mono (hsyms : syms.names <+: syms'.names) (hh : h <+: h') :
    ∀ (d : Datum) (v : Data.Value) (l : List ℕ), Denotes syms h d v l → Denotes syms' h' d v l
  | .null, _, _, hd | .boolean _, _, _, hd | .number _, _, _, hd | .character _, _, _, hd => hd
  | .string _, _, _, ⟨a, hv, ha, hl⟩ => ⟨a, hv, getElem?_of_isPrefix hh ha, hl⟩
  | .symbol _, _, _, ⟨i, hv, hi, hl⟩ => ⟨i, hv, getElem?_of_isPrefix hsyms hi, hl⟩
  | .byteVector _, _, _, ⟨a, hv, ha, hl⟩ => ⟨a, hv, getElem?_of_isPrefix hh ha, hl⟩
  | .pair x y, _, _, ⟨a, car, cdr, l1, l2, hv, ha, hx, hy, hl⟩ =>
    ⟨a, car, cdr, l1, l2, hv, getElem?_of_isPrefix hh ha, denotes_mono hsyms hh x car l1 hx,
      denotes_mono hsyms hh y cdr l2 hy, hl⟩
  | .vector xs, _, _, ⟨a, items, l', hv, ha, hxs, hl⟩ =>
    ⟨a, items, l', hv, getElem?_of_isPrefix hh ha, denotesAll_mono hsyms hh xs items l' hxs, hl⟩

lemma denotesAll_mono (hsyms : syms.names <+: syms'.names) (hh : h <+: h') :
    ∀ (ds : List Datum) (vs : List Data.Value) (l : List ℕ), DenotesAll syms h ds vs l →
      DenotesAll syms' h' ds vs l
  | [], _, _, hds => hds
  | d :: ds, _, _, ⟨v, vs', l1, l2, hvs, hd, hds, hl⟩ =>
    ⟨v, vs', l1, l2, hvs, denotes_mono hsyms hh d v l1 hd, denotesAll_mono hsyms hh ds vs' l2 hds,
      hl⟩

end

lemma names_intern (t : SymbolTable) (name : String) :
    t.names <+: (t.intern name).2.names ∧ (t.intern name).2.name (t.intern name).1 = some name := by
  unfold SymbolTable.intern SymbolTable.name
  split
  · rename_i hmem
    exact ⟨List.prefix_rfl, by simp [List.idxOf_lt_length_iff.2 hmem]⟩
  · exact ⟨List.prefix_append _ _, by simp⟩

mutual

lemma toValue_denotes : ∀ (d : Datum) (t : SymbolTable) (h : Store),
    t.names <+: (toValue d t h).2.1.names ∧ h <+: (toValue d t h).2.2 ∧
      ∃ l, Denotes (toValue d t h).2.1 (toValue d t h).2.2 d (toValue d t h).1 l
  | .null, _, _ | .boolean _, _, _ | .number _, _, _ | .character _, _, _ =>
    ⟨List.prefix_rfl, List.prefix_rfl, [], rfl, rfl⟩
  | .string _, _, h | .byteVector _, _, h =>
    ⟨List.prefix_rfl, List.prefix_append _ _, [], h.length, rfl, by simp [toValue], rfl⟩
  | .symbol s, t, _ => ⟨(names_intern t s).1, List.prefix_rfl, [], _, rfl, (names_intern t s).2,
      rfl⟩
  | .pair x y, t, h => by
    obtain ⟨ht1, hh1, l1, hx⟩ := toValue_denotes x t h
    obtain ⟨ht2, hh2, l2, hy⟩ := toValue_denotes y (toValue x t h).2.1 (toValue x t h).2.2
    refine ⟨ht1.trans ht2, hh1.trans (hh2.trans (List.prefix_append _ _)), _, _, _, _, l1, l2,
      rfl, by simp [toValue], denotes_mono ht2 (hh2.trans (List.prefix_append _ _)) x _ _ hx,
      denotes_mono List.prefix_rfl (List.prefix_append _ _) y _ _ hy, rfl⟩
  | .vector xs, t, h => by
    obtain ⟨ht, hh, l, hxs⟩ := toValues_denotes xs t h
    exact ⟨ht, hh.trans (List.prefix_append _ _), _, _, _, l, rfl, by simp [toValue],
      denotesAll_mono List.prefix_rfl (List.prefix_append _ _) xs _ _ hxs, rfl⟩

lemma toValues_denotes : ∀ (ds : List Datum) (t : SymbolTable) (h : Store),
    t.names <+: (toValues ds t h).2.1.names ∧ h <+: (toValues ds t h).2.2 ∧
      ∃ l, DenotesAll (toValues ds t h).2.1 (toValues ds t h).2.2 ds (toValues ds t h).1 l
  | [], _, _ => ⟨List.prefix_rfl, List.prefix_rfl, [], rfl, rfl⟩
  | d :: ds, t, h => by
    obtain ⟨ht1, hh1, l1, hd⟩ := toValue_denotes d t h
    obtain ⟨ht2, hh2, l2, hds⟩ := toValues_denotes ds (toValue d t h).2.1 (toValue d t h).2.2
    exact ⟨ht1.trans ht2, hh1.trans hh2, _, _, _, l1, l2, rfl, denotes_mono ht2 hh2 d _ _ hd, hds,
      rfl⟩

end

/-! ### Equality -/

variable {fp : FlonumOps}

lemma eqv_normalizeNumber {n : Number} {k : ℤ} (hk : integerOf n = some k) :
    (Data.Value.number n).eqv fp (.number (Number.simplifyBigint k)) = true := by
  have hn : n.toRational = some (k : ℚ) := by
    cases n <;> simp_all [integerOf, Number.toRational]
  have hk' : (Number.simplifyBigint k).toRational = some (k : ℚ) := by
    rw [Number.simplifyBigint_eq, Number.toRational_simplifyRational]
  simp [Data.Value.eqv, Data.Value.asNumber, hn, hk', Number.eqValue_of_toRational hn hk']

/-- `equal?` answers `true`, whatever it has met before. -/
def Compares (fp : FlonumOps) (h : Store) (v w : Data.Value) : Prop :=
  ∃ n, ∀ m ≥ n, ∀ visited fuel, ∃ visited',
    Data.equalRec fp h m v w visited fuel = some (true, visited')

lemma compares_of_eqv {v w : Data.Value} (heqv : v.eqv fp w = true) : Compares fp h v w := by
  refine deep 1 fun m visited fuel => ⟨visited, ?_⟩
  unfold Data.equalRec
  rw [if_pos heqv]

lemma compares_string {a b : ℕ} {s : List Char} (ha : h[a]? = some (.string s))
    (hb : h[b]? = some (.string s)) : Compares fp h (.string a) (.string b) := by
  refine deep 1 fun m visited fuel => ⟨visited, ?_⟩
  unfold Data.equalRec
  simp [ha, hb]

lemma compares_pair {a b : ℕ} {xa xd ya yd : Data.Value} (ha : h[a]? = some (.pair xa xd))
    (hb : h[b]? = some (.pair ya yd)) (hcar : Compares fp h xa ya) (hcdr : Compares fp h xd yd) :
    Compares fp h (.pair a) (.pair b) := by
  refine deep_of₂ 1 hcar hcdr fun m hcar hcdr visited fuel => ?_
  unfold Data.equalRec
  simp only [ha, hb]
  split_ifs with heqv hmet hfuel
  · exact ⟨_, rfl⟩
  · exact ⟨_, rfl⟩
  all_goals
    obtain ⟨visited1, hcar⟩ := hcar _ (fuel - 1)
    obtain ⟨visited2, hcdr⟩ := hcdr visited1 (fuel - 1)
    exact ⟨visited2, by rw [hcar]; exact hcdr⟩

lemma allEqual_of_compares {xs ys : List Data.Value} (hxs : List.Forall₂ (Compares fp h) xs ys) :
    ∃ n, ∀ m ≥ n, ∀ visited fuel, ∃ visited',
      Data.allEqual (fun a b visited => Data.equalRec fp h m a b visited fuel) (xs.zip ys) visited =
        some (true, visited') := by
  induction hxs with
  | nil => exact deep 0 fun m visited fuel => ⟨visited, rfl⟩
  | cons hxy _ ih =>
    refine deep_of₂ 0 hxy ih fun m hxy hrest visited fuel => ?_
    obtain ⟨visited1, hxy⟩ := hxy visited fuel
    obtain ⟨visited2, hrest⟩ := hrest visited1 fuel
    exact ⟨visited2, by simp [Data.allEqual, hxy, hrest]⟩

lemma compares_vector {a b : ℕ} {xs ys : List Data.Value} (ha : h[a]? = some (.vector xs))
    (hb : h[b]? = some (.vector ys)) (hxs : List.Forall₂ (Compares fp h) xs ys) :
    Compares fp h (.vector a) (.vector b) := by
  refine deep_of 1 (allEqual_of_compares hxs) fun m hall visited fuel => ?_
  obtain ⟨visited', hall⟩ := hall visited (fuel - 1)
  unfold Data.equalRec
  simp only [ha, hb, hxs.length_eq, ne_eq, not_true_eq_false, if_false]
  split_ifs with heqv
  · exact ⟨_, rfl⟩
  · exact ⟨visited', hall⟩

mutual

/-- **A plain datum is `equal?` to its normalized form.** -/
lemma compares_of_denotes : ∀ (d : Datum) (v w : Data.Value) (l l' : List ℕ), Plain d →
    Denotes syms h d v l → Denotes syms' h (normalize d) w l' → Compares fp h v w
  | .null, _, _, _, _, _, ⟨rfl, _⟩, ⟨rfl, _⟩ | .boolean _, _, _, _, _, _, ⟨rfl, _⟩, ⟨rfl, _⟩
  | .character _, _, _, _, _, _, ⟨rfl, _⟩, ⟨rfl, _⟩ =>
    compares_of_eqv (by simp [Data.Value.eqv, Data.Value.asNumber, Data.Value.eq])
  | .number n, _, _, _, _, hn, ⟨rfl, _⟩, hw => by
    obtain ⟨k, hk⟩ := Option.isSome_iff_exists.1 hn
    rw [normalize_number hk] at hw
    obtain ⟨rfl, -⟩ := hw
    exact compares_of_eqv (eqv_normalizeNumber hk)
  | .string _, _, _, _, _, _, ⟨_, rfl, ha, _⟩, ⟨_, rfl, hb, _⟩ => compares_string ha hb
  | .pair x y, _, _, _, _, hxy, ⟨_, _, _, _, _, rfl, ha, hxa, hxd, _⟩,
      ⟨_, _, _, _, _, rfl, hb, hya, hyd, _⟩ =>
    compares_pair ha hb (compares_of_denotes x _ _ _ _ hxy.1 hxa hya)
      (compares_of_denotes y _ _ _ _ hxy.2 hxd hyd)
  | .vector xs, _, _, _, _, hxs, ⟨_, _, _, rfl, ha, hvs, _⟩, ⟨_, _, _, rfl, hb, hws, _⟩ =>
    compares_vector ha hb (allCompare_of_denotes xs _ _ _ _ hxs hvs hws)
  | .symbol _, _, _, _, _, hs, _, _ | .byteVector _, _, _, _, _, hs, _, _ => hs.elim

lemma allCompare_of_denotes : ∀ (ds : List Datum) (vs ws : List Data.Value) (l l' : List ℕ),
    AllPlain ds → DenotesAll syms h ds vs l → DenotesAll syms' h (normalizeAll ds) ws l' →
      List.Forall₂ (Compares fp h) vs ws
  | [], _, _, _, _, _, ⟨rfl, _⟩, ⟨rfl, _⟩ => .nil
  | d :: ds, _, _, _, _, hds, ⟨_, _, _, _, rfl, hv, hvs, _⟩, ⟨_, _, _, _, rfl, hw, hws, _⟩ =>
    .cons (compares_of_denotes d _ _ _ _ hds.1 hv hw)
      (allCompare_of_denotes ds _ _ _ _ hds.2 hvs hws)

end

end Values

/-! ### The round trip -/

/-- **A value survives writing and reading**: `write` prints a text for it, reading that text
gives a datum and stops right after the text, at the end of the input or whatever delimiter
follows, and the value of the datum is `equal?` to the value that was written. -/
def RoundTrips (ops : TextOps) (syms : SymbolTable) (h : Store) (v : Data.Value) : Prop :=
  ∃ text, (∃ n, ∀ m ≥ n, ∃ visited, writeTo ops syms h .write m [] v = some (text, visited)) ∧
    ∃ d, (∃ n, ∀ m ≥ n, ∀ rest, Ends rest →
        read ops m ⟨text ++ rest, none⟩ = .ok (some d, ⟨rest, none⟩)) ∧
      Data.Equal ops.toFlonumOps (toValue d syms h).2.2 v (toValue d syms h).1

/-- **Reading back what was written.** Every value that is a plain datum, no two of whose pairs
and vectors are one, survives writing and reading. -/
theorem read_write (ops : TextOps) (syms : SymbolTable) (h : Store) (d : Datum) (v : Data.Value)
    (l : List ℕ) (hd : Denotes syms h d v l) (htree : l.Nodup) (hplain : Plain d) :
    RoundTrips ops syms h v := by
  refine ⟨textAs ops false d, prints_of_denotes hd htree, normalize d,
    (reads_of_plain d hplain).1, ?_⟩
  obtain ⟨-, hstore, l', hd'⟩ := toValue_denotes (normalize d) syms h
  have hv := denotes_mono List.prefix_rfl hstore d v l hd
  obtain ⟨n, hn⟩ := compares_of_denotes d _ _ _ _ hplain hv hd'
  exact ⟨n, hn n le_rfl [] 64⟩

/-- Conversions of flonums that know no flonum but `0.0`. -/
def TextOps.coarse : TextOps where
  toFlonumOps := FlonumOps.coarse
  div f _ := f
  abs f := f
  isFinite _ := true
  isWhole _ := true
  asI64 _ := I64.ofNat 0
  parseF64 _ := none
  displayF64 _ := "0.0".toList

/-- The table without symbols. -/
def SymbolTable.empty : SymbolTable := ⟨[], List.nodup_nil⟩

/-- The store that holds the list `(1 #(#\space))`. -/
def sampleStore : Store :=
  [.pair (.number (.fixnum (I64.ofNat 1))) (.pair 1), .pair (.vector 2) .null,
    .vector [.character ' ']]

/-- The list `(1 #(#\space))` survives writing and reading. -/
theorem read_write_sample :
    Denotes SymbolTable.empty sampleStore
        (.pair (.number (.fixnum (I64.ofNat 1))) (.pair (.vector [.character ' ']) .null))
        (.pair 0) [0, 1, 2] ∧
      RoundTrips TextOps.coarse SymbolTable.empty sampleStore (.pair 0) := by
  have hd : Denotes SymbolTable.empty sampleStore
      (.pair (.number (.fixnum (I64.ofNat 1))) (.pair (.vector [.character ' ']) .null))
      (.pair 0) [0, 1, 2] :=
    ⟨0, _, _, [], [1, 2], rfl, rfl, ⟨rfl, rfl⟩,
      ⟨1, _, _, [2], [], rfl, rfl,
        ⟨2, _, [], rfl, rfl, ⟨_, _, [], [], rfl, ⟨rfl, rfl⟩, ⟨rfl, rfl⟩, rfl⟩, rfl⟩,
        ⟨rfl, rfl⟩, rfl⟩, rfl⟩
  exact ⟨hd, read_write TextOps.coarse SymbolTable.empty sampleStore _ _ _ hd (by decide)
    ⟨rfl, ⟨trivial, trivial⟩, trivial⟩⟩

end CrabScheme.Text
