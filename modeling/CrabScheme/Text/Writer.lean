import CrabScheme.Text.Reader

/-!
# The writer

`write` and `display`: the text of a value. The writer walks the store and remembers the pairs
and vectors it is inside of, so that a circular value is cut off. A datum in the store is
tree-shaped if no two of its pairs and vectors are one; of such a datum the writer prints the
whole tree, which is a function of the datum alone.

## Main results

* `printsAs_of_denotes` — the writer prints a tree-shaped datum in full.
-/

namespace CrabScheme.Text

open Expand (Datum rebuildListWithTail)
open Data (Object Store)

/-- `WriteMode`. -/
inductive WriteMode
  | write
  | display
deriving DecidableEq

section Print

variable (ops : TextOps)

/-- The flonum arm of `Display for Number`. -/
def displayFlonum (f : F64) : List Char :=
  if f.isNan then "+nan.0".toList
  else if !ops.isFinite f then (if f.bits.msb then '-' else '+') :: "inf.0".toList
  else if ops.isWhole f then Numeral.decimal (ops.asI64 f).val ++ ".0".toList
  else ops.displayF64 f

/-- `Display for Number`. -/
def displayNumber : Number → List Char
  | .fixnum n => Numeral.decimal n.val
  | .big n => Numeral.decimal n
  | .rat q => Numeral.decimal q.num ++ '/' :: Numeral.decimal q.den
  | .flonum f => displayFlonum ops f

/-- The escape of one character of a string. -/
def escapeChar (c : Char) : List Char :=
  if c = '\x22' then ['\x5c', '\x22']
  else if c = '\x5c' then ['\x5c', '\x5c']
  else if c = '\n' then ['\x5c', 'n']
  else if c = '\t' then ['\x5c', 't']
  else if c = '\r' then ['\x5c', 'r']
  else [c]

/-- `escape_string`. -/
def escapeString (s : List Char) : List Char := s.flatMap escapeChar

/-- A character as `write` prints it. -/
def characterText (c : Char) : List Char :=
  if c = ' ' then "#\\space".toList
  else if c = '\n' then "#\\newline".toList
  else if c = '\t' then "#\\tab".toList
  else if c = '\r' then "#\\return".toList
  else if c = '\x00' then "#\\nul".toList
  else ['#', '\x5c', c]

/-- Bytes as the writer prints them, separated by spaces. -/
def bytesText : List UInt8 → List Char
  | [] => []
  | [b] => Numeral.decimal b.toNat
  | b :: bs => Numeral.decimal b.toNat ++ ' ' :: bytesText bs

/-- A bytevector as the writer prints it. -/
def byteVectorText (bs : List UInt8) : List Char := "#vu8(".toList ++ bytesText bs ++ [')']

variable (syms : SymbolTable) (h : Store) (mode : WriteMode)

mutual

/-- `write_to_visited`: the text of a value and the set of addresses met. The first argument
bounds the depth of the recursion; without an answer it was too small or an address dangles. -/
def writeTo : ℕ → List ℕ → Data.Value → Option (List Char × List ℕ)
  | 0, _, _ => none
  | n + 1, visited, v =>
    match v with
    | .null => some ("()".toList, visited)
    | .unspecified => some ("#<unspecified>".toList, visited)
    | .eof => some ("#<eof>".toList, visited)
    | .boolean true => some ("#t".toList, visited)
    | .boolean false => some ("#f".toList, visited)
    | .character c =>
      match mode with
      | .write => some (characterText c, visited)
      | .display => some ([c], visited)
    | .number m => some (displayNumber ops m, visited)
    | .string a =>
      match h[a]?, mode with
      | some (.string s), .write => some ('\x22' :: escapeString s ++ ['\x22'], visited)
      | some (.string s), .display => some (s, visited)
      | _, _ => none
    | .symbol s => (syms.name s).map fun name => (name.toList, visited)
    | .identifier s _ => (syms.name s).map fun name => (name.toList, visited)
    | .pair a =>
      if a ∈ visited then some ("(...)".toList, visited)
      else
        match h[a]? with
        | some (.pair car cdr) =>
          (writeChain n (a :: visited) car cdr).map fun p =>
            ('(' :: p.1, p.2.filter (· ≠ a))
        | _ => none
    | .vector a =>
      if a ∈ visited then some ("#(...)".toList, visited)
      else
        match h[a]? with
        | some (.vector items) =>
          (writeItems n (a :: visited) items).map fun p =>
            ('#' :: '(' :: p.1 ++ [')'], p.2.filter (· ≠ a))
        | _ => none
    | .byteVector a =>
      match h[a]? with
      | some (.byteVector bs) => some (byteVectorText bs, visited)
      | _ => none
    | .procedure a | .hashtable a | .port a | .promise a =>
      match h[a]? with
      | some (.other printed) => some (printed, visited)
      | _ => none

/-- The loop of `write_pair_inner`: the text after the opening parenthesis. -/
def writeChain : ℕ → List ℕ → Data.Value → Data.Value → Option (List Char × List ℕ)
  | 0, _, _, _ => none
  | n + 1, visited, car, cdr =>
    match writeTo n visited car with
    | none => none
    | some (text, visited) =>
      match cdr with
      | .null => some (text ++ [')'], visited)
      | .pair next =>
        if next ∈ visited then some (text ++ " . #<cycle>)".toList, visited)
        else
          match h[next]? with
          | some (.pair car cdr) =>
            (writeChain n (next :: visited) car cdr).map fun p => (text ++ ' ' :: p.1, p.2)
          | _ => none
      | other =>
        (writeTo n visited other).map fun p => (text ++ " . ".toList ++ p.1 ++ [')'], p.2)

/-- The items of a vector, separated by spaces. -/
def writeItems : ℕ → List ℕ → List Data.Value → Option (List Char × List ℕ)
  | 0, _, _ => none
  | _ + 1, visited, [] => some ([], visited)
  | n + 1, visited, [v] => writeTo n visited v
  | n + 1, visited, v :: vs =>
    match writeTo n visited v with
    | none => none
    | some (text, visited) =>
      (writeItems n visited vs).map fun p => (text ++ ' ' :: p.1, p.2)

end

/-! ### Depths that suffice -/

section Deep

variable {P P' Q : ℕ → Prop}

lemma deep (k : ℕ) (h : ∀ m, Q (m + k)) : ∃ n, ∀ m ≥ n, Q m := by
  refine ⟨k, fun m hm => ?_⟩
  obtain ⟨m, rfl⟩ := Nat.exists_eq_add_of_le' hm
  exact h m

lemma deep_of₂ (k : ℕ) (hP : ∃ n, ∀ m ≥ n, P m) (hP' : ∃ n, ∀ m ≥ n, P' m)
    (h : ∀ m, P m → P' m → Q (m + k)) : ∃ n, ∀ m ≥ n, Q m := by
  obtain ⟨n, hn⟩ := hP
  obtain ⟨n', hn'⟩ := hP'
  refine ⟨n + n' + k, fun m hm => ?_⟩
  obtain ⟨m, rfl⟩ := Nat.exists_eq_add_of_le' (show k ≤ m by omega)
  exact h m (hn m (by omega)) (hn' m (by omega))

lemma deep_of (k : ℕ) (hP : ∃ n, ∀ m ≥ n, P m) (h : ∀ m, P m → Q (m + k)) : ∃ n, ∀ m ≥ n, Q m :=
  deep_of₂ k hP hP fun m hm _ => h m hm

lemma deep_succ (hP : ∃ n, ∀ m ≥ n, P m) : ∃ n, ∀ m ≥ n, P (m + 1) :=
  hP.imp fun _ hn m hm => hn (m + 1) (by omega)

end Deep

/-! ### Data in the store -/

mutual

/-- **A value of the store is a datum**, with the addresses of its pairs and vectors. -/
def Denotes : Datum → Data.Value → List ℕ → Prop
  | .null, v, l => v = .null ∧ l = []
  | .boolean b, v, l => v = .boolean b ∧ l = []
  | .number n, v, l => v = .number n ∧ l = []
  | .character c, v, l => v = .character c ∧ l = []
  | .string s, v, l => ∃ a, v = .string a ∧ h[a]? = some (.string s.toList) ∧ l = []
  | .symbol s, v, l => ∃ i, v = .symbol i ∧ syms.name i = some s ∧ l = []
  | .byteVector bs, v, l => ∃ a, v = .byteVector a ∧ h[a]? = some (.byteVector bs) ∧ l = []
  | .pair x y, v, l => ∃ a car cdr l₁ l₂, v = .pair a ∧ h[a]? = some (.pair car cdr) ∧
      Denotes x car l₁ ∧ Denotes y cdr l₂ ∧ l = a :: (l₁ ++ l₂)
  | .vector xs, v, l => ∃ a items l', v = .vector a ∧ h[a]? = some (.vector items) ∧
      DenotesAll xs items l' ∧ l = a :: l'

/-- The values of the store are the data. -/
def DenotesAll : List Datum → List Data.Value → List ℕ → Prop
  | [], vs, l => vs = [] ∧ l = []
  | d :: ds, vs, l => ∃ v vs' l₁ l₂, vs = v :: vs' ∧ Denotes d v l₁ ∧ DenotesAll ds vs' l₂ ∧
      l = l₁ ++ l₂

end

/-- The text of a datum that ends a list is dotted. -/
def dotted (tail : Bool) (text : List Char) : List Char :=
  if tail then " . ".toList ++ text ++ [')'] else text

mutual

/-- The text of a datum, either on its own or as what follows an item of a list. -/
def textAs : Bool → Datum → List Char
  | tail, .null => if tail then [')'] else "()".toList
  | tail, .boolean b => dotted tail (if b then "#t".toList else "#f".toList)
  | tail, .number n => dotted tail (displayNumber ops n)
  | tail, .character c => dotted tail (characterText c)
  | tail, .string s => dotted tail ('\x22' :: escapeString s.toList ++ ['\x22'])
  | tail, .symbol s => dotted tail s.toList
  | tail, .byteVector bs => dotted tail (byteVectorText bs)
  | tail, .pair x y => (if tail then ' ' else '(') :: textAs false x ++ textAs true y
  | tail, .vector xs => dotted tail ('#' :: '(' :: itemsText xs ++ [')'])

/-- The items of a vector. -/
def itemsText : List Datum → List Char
  | [] => []
  | [x] => textAs false x
  | x :: xs => textAs false x ++ ' ' :: itemsText xs

end

/-! ### The writer prints the tree -/

section Tree

/-- The writer prints `text` for a value, from any set of addresses that leaves those of the
value out, and adds at most those. -/
def Prints (v : Data.Value) (l : List ℕ) (text : List Char) : Prop :=
  ∃ n, ∀ m ≥ n, ∀ visited : List ℕ, l.Nodup → (∀ a ∈ l, a ∉ visited) →
    ∃ visited', writeTo ops syms h .write m visited v = some (text, visited') ∧
      visited' ⊆ visited ++ l

/-- After the car of a pair whose cdr is `v`, the writer prints `text`. -/
def PrintsTail (v : Data.Value) (l : List ℕ) (text : List Char) : Prop :=
  ∃ n, ∀ m ≥ n, ∀ (visited visited₁ : List ℕ) (car : Data.Value) (t : List Char),
    writeTo ops syms h .write m visited car = some (t, visited₁) →
    l.Nodup → (∀ a ∈ l, a ∉ visited₁) →
    ∃ visited', writeChain ops syms h .write (m + 1) visited car v = some (t ++ text, visited') ∧
      visited' ⊆ visited₁ ++ l

/-- The writer prints `text` for the items of a vector. -/
def PrintsItems (vs : List Data.Value) (l : List ℕ) (text : List Char) : Prop :=
  ∃ n, ∀ m ≥ n, ∀ visited : List ℕ, l.Nodup → (∀ a ∈ l, a ∉ visited) →
    ∃ visited', writeItems ops syms h .write m visited vs = some (text, visited') ∧
      visited' ⊆ visited ++ l

variable {ops syms h}
variable {v : Data.Value} {l l₁ l₂ : List ℕ} {text t₁ t₂ : List Char} {a : ℕ}

lemma prints_of_atom
    (hv : ∀ m visited, writeTo ops syms h .write (m + 1) visited v = some (text, visited)) :
    Prints ops syms h v l text :=
  deep 1 fun m visited _ _ => ⟨visited, hv m visited, by simp⟩

lemma printsTail_of_prints (hv : Prints ops syms h v l text) (hnull : v ≠ .null)
    (hpair : ∀ a, v ≠ .pair a) : PrintsTail ops syms h v l (dotted true text) := by
  obtain ⟨n, hn⟩ := hv
  refine ⟨n, fun m hm visited visited1 car t hcar hnodup hdisj => ?_⟩
  obtain ⟨visited', hwrite, hsub⟩ := hn m hm visited1 hnodup hdisj
  rw [writeChain]
  cases v <;> simp_all [dotted]

lemma prints_atom
    (hv : ∀ m visited, writeTo ops syms h .write (m + 1) visited v = some (text, visited))
    (hnull : v ≠ .null) (hpair : ∀ a, v ≠ .pair a) :
    Prints ops syms h v l (dotted false text) ∧ PrintsTail ops syms h v l (dotted true text) :=
  ⟨prints_of_atom hv, printsTail_of_prints (prints_of_atom hv) hnull hpair⟩

lemma printsTail_null (l : List ℕ) : PrintsTail ops syms h .null l [')'] := by
  refine ⟨0, fun m _ visited visited1 car t hcar _ _ => ⟨visited1, ?_, by simp⟩⟩
  rw [writeChain, hcar]

lemma chain_of_pair {car cdr : Data.Value} (hcar : Prints ops syms h car l₁ t₁)
    (hcdr : PrintsTail ops syms h cdr l₂ t₂) :
    ∃ n, ∀ m ≥ n, ∀ visited : List ℕ, (l₁ ++ l₂).Nodup → (∀ a ∈ l₁ ++ l₂, a ∉ visited) →
      ∃ visited', writeChain ops syms h .write (m + 1) visited car cdr =
        some (t₁ ++ t₂, visited') ∧ visited' ⊆ visited ++ (l₁ ++ l₂) := by
  refine deep_of₂ 0 hcar hcdr fun m hcar hcdr visited hnodup hdisj => ?_
  obtain ⟨hnodup1, hnodup2, hne⟩ := List.nodup_append.1 hnodup
  obtain ⟨visited1, hwrite, hsub1⟩ := hcar visited hnodup1
    fun a ha => hdisj a (List.mem_append_left _ ha)
  -- the addresses of the tail are neither old nor among those of the car
  have hdisj2 : ∀ a ∈ l₂, a ∉ visited1 := by
    intro a ha hmem
    rcases List.mem_append.1 (hsub1 hmem) with hv | hl
    · exact hdisj a (List.mem_append_right _ ha) hv
    · exact hne a hl a ha rfl
  obtain ⟨visited2, hchain, hsub2⟩ := hcdr visited visited1 car t₁ hwrite hnodup2 hdisj2
  refine ⟨visited2, hchain, fun a ha => ?_⟩
  rcases List.mem_append.1 (hsub2 ha) with hv | hl
  · rcases List.mem_append.1 (hsub1 hv) with hv | hl
    · exact List.mem_append_left _ hv
    · exact List.mem_append_right _ (List.mem_append_left _ hl)
  · exact List.mem_append_right _ (List.mem_append_right _ hl)

lemma avoid_cons {visited : List ℕ} (hnodup : (a :: l).Nodup) (hdisj : ∀ b ∈ a :: l, b ∉ visited) :
    l.Nodup ∧ a ∉ visited ∧ ∀ b ∈ l, b ∉ a :: visited := by
  obtain ⟨ha, hl⟩ := List.nodup_cons.1 hnodup
  refine ⟨hl, hdisj a (by simp), fun b hb hmem => ?_⟩
  rcases List.mem_cons.1 hmem with rfl | hv
  · exact ha hb
  · exact hdisj b (List.mem_cons_of_mem _ hb) hv

lemma prints_pair {car cdr : Data.Value} (ha : h[a]? = some (.pair car cdr))
    (hcar : Prints ops syms h car l₁ t₁) (hcdr : PrintsTail ops syms h cdr l₂ t₂) :
    Prints ops syms h (.pair a) (a :: (l₁ ++ l₂)) ('(' :: t₁ ++ t₂) ∧
      PrintsTail ops syms h (.pair a) (a :: (l₁ ++ l₂)) (' ' :: t₁ ++ t₂) := by
  have hchain := chain_of_pair hcar hcdr
  constructor
  · refine deep_of 2 hchain fun m hchain visited hnodup hdisj => ?_
    obtain ⟨hl, hnew, hdisj'⟩ := avoid_cons hnodup hdisj
    obtain ⟨visited', hchain, hsub⟩ := hchain (a :: visited) hl hdisj'
    refine ⟨visited'.filter (· ≠ a), ?_, fun b hb => ?_⟩
    · show (if a ∈ visited then _ else _) = _
      simp [hnew, ha, hchain]
    · have := hsub (List.mem_filter.1 hb).1
      simp only [List.mem_cons, List.mem_append] at this ⊢
      tauto
  · refine deep_of 1 hchain fun m hchain visited visited1 c t hwrite hnodup hdisj => ?_
    obtain ⟨hl, hnew, hdisj'⟩ := avoid_cons hnodup hdisj
    obtain ⟨visited', hchain, hsub⟩ := hchain (a :: visited1) hl hdisj'
    refine ⟨visited', ?_, fun b hb => ?_⟩
    · rw [writeChain, hwrite]
      simp [hnew, ha, hchain]
    · have := hsub hb
      simp only [List.cons_append, List.mem_cons, List.mem_append] at this ⊢
      tauto

lemma prints_vector {items : List Data.Value} (ha : h[a]? = some (.vector items))
    (hitems : PrintsItems ops syms h items l text) :
    Prints ops syms h (.vector a) (a :: l) ('#' :: '(' :: text ++ [')']) := by
  refine deep_of 1 hitems fun m hitems visited hnodup hdisj => ?_
  obtain ⟨hl, hnew, hdisj'⟩ := avoid_cons hnodup hdisj
  obtain ⟨visited', hwrite, hsub⟩ := hitems (a :: visited) hl hdisj'
  refine ⟨visited'.filter (· ≠ a), ?_, fun b hb => ?_⟩
  · show (if a ∈ visited then _ else _) = _
    simp [hnew, ha, hwrite]
  · have := hsub (List.mem_filter.1 hb).1
    simp only [List.mem_cons, List.mem_append] at this ⊢
    tauto

lemma printsItems_singleton (hv : Prints ops syms h v l text)
    : PrintsItems ops syms h [v] l text := by
  refine deep_of 1 hv fun m hv visited hnodup hdisj => ?_
  obtain ⟨visited', hwrite, hsub⟩ := hv visited hnodup hdisj
  exact ⟨visited', hwrite, hsub⟩

lemma printsItems_cons {w : Data.Value} {vs : List Data.Value} (hv : Prints ops syms h v l₁ t₁)
    (hvs : PrintsItems ops syms h (w :: vs) l₂ t₂) :
    PrintsItems ops syms h (v :: w :: vs) (l₁ ++ l₂) (t₁ ++ ' ' :: t₂) := by
  refine deep_of₂ 1 hv hvs fun m hv hvs visited hnodup hdisj => ?_
  obtain ⟨hnodup1, hnodup2, hne⟩ := List.nodup_append.1 hnodup
  obtain ⟨visited1, hwrite, hsub1⟩ := hv visited hnodup1
    fun a ha => hdisj a (List.mem_append_left _ ha)
  have hdisj2 : ∀ a ∈ l₂, a ∉ visited1 := by
    intro a ha hmem
    rcases List.mem_append.1 (hsub1 hmem) with hv | hl
    · exact hdisj a (List.mem_append_right _ ha) hv
    · exact hne a hl a ha rfl
  obtain ⟨visited2, hitems, hsub2⟩ := hvs visited1 hnodup2 hdisj2
  refine ⟨visited2, by simp [writeItems, hwrite, hitems], fun a ha => ?_⟩
  have := hsub2 ha
  have hsub1' := @hsub1 a
  simp only [List.mem_append] at this hsub1' ⊢
  tauto

mutual

/-- **The writer prints a tree-shaped datum in full**, both on its own and as the tail of a
list. -/
lemma printsAs_of_denotes : ∀ (d : Datum) (v : Data.Value) (l : List ℕ), Denotes syms h d v l →
    Prints ops syms h v l (textAs ops false d) ∧ PrintsTail ops syms h v l (textAs ops true d)
  | .null, _, _, ⟨rfl, rfl⟩ => ⟨prints_of_atom fun _ _ => rfl, printsTail_null []⟩
  | .boolean b, _, _, ⟨rfl, rfl⟩ =>
    prints_atom (fun _ _ => by cases b <;> rfl) (by simp) (by simp)
  | .number _, _, _, ⟨rfl, rfl⟩ | .character _, _, _, ⟨rfl, rfl⟩ =>
    prints_atom (fun _ _ => rfl) (by simp) (by simp)
  | .string _, _, _, ⟨_, rfl, ha, rfl⟩ | .symbol _, _, _, ⟨_, rfl, ha, rfl⟩
  | .byteVector _, _, _, ⟨_, rfl, ha, rfl⟩ =>
    prints_atom (fun _ _ => by simp [writeTo, ha]) (by simp) (by simp)
  | .pair x y, _, _, ⟨_, car, cdr, l₁, l₂, rfl, ha, hx, hy, rfl⟩ =>
    prints_pair ha (printsAs_of_denotes x car l₁ hx).1 (printsAs_of_denotes y cdr l₂ hy).2
  | .vector xs, _, _, ⟨_, items, l, rfl, ha, hxs, rfl⟩ => by
    have hv := prints_vector ha (printsItems_of_denotesAll xs items l hxs)
    exact ⟨hv, printsTail_of_prints hv (by simp) (by simp)⟩

lemma printsItems_of_denotesAll : ∀ (ds : List Datum) (vs : List Data.Value) (l : List ℕ),
    DenotesAll syms h ds vs l → PrintsItems ops syms h vs l (itemsText ops ds)
  | [], _, _, ⟨rfl, rfl⟩ => deep 1 fun m visited _ _ => ⟨visited, rfl, by simp⟩
  | [d], _, _, ⟨v, _, l₁, _, rfl, hd, ⟨rfl, rfl⟩, rfl⟩ => by
    rw [List.append_nil]
    exact printsItems_singleton (printsAs_of_denotes d v l₁ hd).1
  | d :: e :: ds, _, _, ⟨v, vs, l₁, l₂, rfl, hd, hds, rfl⟩ => by
    have htail := printsItems_of_denotesAll (e :: ds) vs l₂ hds
    obtain ⟨w, ws, -, -, rfl, -⟩ := hds
    exact printsItems_cons (printsAs_of_denotes d v l₁ hd).1 htail

end

lemma prints_of_denotes {d : Datum} (hd : Denotes syms h d v l) (hl : l.Nodup)
    : ∃ n, ∀ m ≥ n, ∃ visited,
      writeTo ops syms h .write m [] v = some (textAs ops false d, visited) :=
  deep_of 0 (printsAs_of_denotes d v l hd).1 fun _ hprints =>
    (hprints [] hl (by simp)).imp fun _ => And.left

end Tree

end Print

end CrabScheme.Text
