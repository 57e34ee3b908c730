import CrabScheme.Lib.Actions

/-!
# The side table of procedures

A boxed procedure is an index of a table of counted slots. The freed slots are linked through the
table itself, with `u32::MAX` as the end of the list. A run counts beside the table how many
carriers of each index are outstanding.

## Main results

* `procTable_sound` — counts and free list are right as long as the table does not outgrow its
  indices.
* `alloc_aliases` — once it does, a slot in use is given out again.
-/

namespace CrabScheme

/-- `ProcSlot`. -/
structure ProcSlot (P : Type) where
  proc : Option P
  refcount : ℕ
  nextFree : ℕ

/-- `ProcTable`. -/
structure ProcTable (P : Type) where
  slots : List (ProcSlot P)
  freeHead : ℕ

namespace ProcTable

variable {P : Type}

/-- `NIL`. -/
def nil : ℕ := 2 ^ 32 - 1

/-- `ProcTable::alloc`; `none` is a panic, here and below. -/
def alloc (t : ProcTable P) (p : P) : Option (ProcTable P × ℕ) :=
  if t.freeHead ≠ nil then
    t.slots[t.freeHead]?.map fun slot =>
      (⟨t.slots.set t.freeHead ⟨some p, 1, nil⟩, slot.nextFree⟩, t.freeHead)
  else some (⟨t.slots ++ [⟨some p, 1, nil⟩], t.freeHead⟩, t.slots.length % 2 ^ 32)

/-- `ProcTable::incref`. -/
def incref (t : ProcTable P) (idx : ℕ) : Option (ProcTable P) :=
  t.slots[idx]?.bind fun slot =>
    if slot.refcount + 1 < 2 ^ 32 then
      some { t with slots := t.slots.set idx { slot with refcount := slot.refcount + 1 } }
    else none

/-- `ProcTable::decref`. -/
def decref (t : ProcTable P) (idx : ℕ) : Option (ProcTable P × Option P) :=
  t.slots[idx]?.map fun slot =>
    let refcount := (slot.refcount + (2 ^ 32 - 1)) % 2 ^ 32
    if refcount = 0 then (⟨t.slots.set idx ⟨none, refcount, t.freeHead⟩, idx⟩, slot.proc)
    else ({ t with slots := t.slots.set idx { slot with refcount } }, none)

/-- `ProcTable::peek`. -/
def peek (t : ProcTable P) (idx : ℕ) : Option P := t.slots[idx]?.bind (·.proc)

/-- `take`. -/
def take (t : ProcTable P) (idx : ℕ) : Option (P × ProcTable P) :=
  (t.peek idx).bind fun p => (t.decref idx).map fun (t, _) => (p, t)

/-! ### Runs -/

/-- The operations. -/
inductive Op (P : Type)
  | alloc (p : P)
  | incref (idx : ℕ)
  | decref (idx : ℕ)
  | take (idx : ℕ)

/-- The table with the number of outstanding carriers of each index. -/
structure World (P : Type) where
  table : ProcTable P
  carriers : ℕ → ℕ

/-- `ProcTable::new`, and no carriers. -/
def World.new : World P := ⟨⟨[], nil⟩, fun _ => 0⟩

/-- The carriers of one index become `n`. -/
def World.carry (w : World P) (t : ProcTable P) (idx n : ℕ) : World P :=
  ⟨t, Function.update w.carriers idx n⟩

/-- One operation; one that panics changes nothing. -/
def step (op : Op P) (w : World P) : World P :=
  match op with
  | .alloc p =>
    match w.table.alloc p with
    | some (t, idx) => w.carry t idx (w.carriers idx + 1)
    | none => w
  | .incref idx =>
    match w.table.incref idx with
    | some t => w.carry t idx (w.carriers idx + 1)
    | none => w
  | .decref idx =>
    match w.table.decref idx with
    | some (t, _) => w.carry t idx (w.carriers idx - 1)
    | none => w
  | .take idx =>
    match w.table.take idx with
    | some (_, t) => w.carry t idx (w.carriers idx - 1)
    | none => w

/-- A carrier is cloned or released only while it is outstanding. -/
def Carried (w : World P) : Op P → Prop
  | .alloc _ => True
  | .incref idx | .decref idx | .take idx => 0 < w.carriers idx

/-- There is an index left for a new slot. -/
def Room (w : World P) : Op P → Prop
  | .alloc _ => w.table.freeHead ≠ nil ∨ w.table.slots.length < nil
  | _ => True

/-! ### The invariant -/

/-- The count of every slot is that of its carriers. -/
def Counts (slots : List (ProcSlot P)) (carriers : ℕ → ℕ) : Prop :=
  ∀ i, match slots[i]? with
    | some slot => slot.refcount = carriers i ∧ slot.refcount < 2 ^ 32 ∧
        (slot.proc = none ↔ carriers i = 0)
    | none => carriers i = 0

/-- The list of slots that starts at an index. -/
def Links (slots : List (ProcSlot P)) : ℕ → List ℕ → Prop
  | head, [] => head = nil
  | head, i :: l => head = i ∧ ∃ slot, slots[i]? = some slot ∧ Links slots slot.nextFree l

/-- The slot has been freed. -/
def Freed (slots : List (ProcSlot P)) (i : ℕ) : Prop :=
  ∃ slot, slots[i]? = some slot ∧ slot.proc = none

/-- Counts are right, and the free list lists the freed slots, each of them once. -/
structure Sound (w : World P) : Prop where
  fits : w.table.slots.length ≤ nil
  counts : Counts w.table.slots w.carriers
  free : ∃ l : List ℕ, l.Nodup ∧ Links w.table.slots w.table.freeHead l ∧
    ∀ i, i ∈ l ↔ Freed w.table.slots i

variable {slots slots' : List (ProcSlot P)} {slot : ProcSlot P} {i idx n head : ℕ} {l : List ℕ}
  {w : World P} {t : ProcTable P}

lemma alloc_push (h : t.freeHead = nil) (p : P) : t.alloc p =
    some (⟨t.slots ++ [⟨some p, 1, nil⟩], t.freeHead⟩, t.slots.length % 2 ^ 32) :=
  if_neg (not_not.mpr h)

lemma Links.congr (h : Links slots head l) (heq : ∀ i ∈ l, slots'[i]? = slots[i]?) :
    Links slots' head l := by
  induction l generalizing head with
  | nil => exact h
  | cons i l ih =>
    obtain ⟨rfl, slot, hslot, hl⟩ := h
    exact ⟨rfl, slot, (heq _ List.mem_cons_self).trans hslot,
      ih hl fun j hj => heq j (List.mem_cons_of_mem _ hj)⟩

/-! ### The steps -/

/-- One slot is written, or added at the end. -/
def Puts (slots slots' : List (ProcSlot P)) (idx : ℕ) (slot : ProcSlot P) : Prop :=
  ∀ i, slots'[i]? = if i = idx then some slot else slots[i]?

lemma puts_set (hidx : idx < slots.length) : Puts slots (slots.set idx slot) idx slot := by
  intro i
  rw [List.getElem?_set, if_pos hidx]
  simp only [eq_comm]

lemma puts_push : Puts slots (slots ++ [slot]) slots.length slot := by
  intro i
  rcases Nat.lt_trichotomy i slots.length with hi | rfl | hi
  · rw [List.getElem?_append_left hi, if_neg (Nat.ne_of_lt hi)]
  · simp
  · rw [if_neg (Nat.ne_of_gt hi), List.getElem?_eq_none (by simp; omega),
      List.getElem?_eq_none (Nat.le_of_lt hi)]

/-- The slot of an index is written, and heads the free list if it is written as free. -/
lemma Sound.put (h : Sound w) (hfits : t.slots.length ≤ nil)
    (hput : Puts w.table.slots t.slots idx slot) (hnodup : l.Nodup)
    (hlinks : Links w.table.slots head l) (hmem : ∀ i, i ∈ l ↔ Freed w.table.slots i ∧ i ≠ idx)
    (hslot : slot.refcount = n ∧ n < 2 ^ 32 ∧ (slot.proc = none ↔ n = 0))
    (hhead : if n = 0 then t.freeHead = idx ∧ slot.nextFree = head else t.freeHead = head) :
    Sound (w.carry t idx n) := by
  obtain ⟨rfl, hlt, hfree⟩ := hslot
  have hnot : idx ∉ l := fun hi => ((hmem idx).mp hi).2 rfl
  have hself : t.slots[idx]? = some slot := (hput idx).trans (if_pos rfl)
  have hkept : Links t.slots head l := hlinks.congr fun i hi =>
    (hput i).trans (if_neg fun heq : i = idx => hnot (heq ▸ hi))
  have hfreed : ∀ i, Freed t.slots i ↔ if i = idx then slot.refcount = 0 else i ∈ l := by
    intro i
    rw [Freed, hput i, hmem]
    split_ifs with hi
    · simp [← hfree]
    · simp [Freed, hi]
  refine ⟨hfits, fun i => ?_, ?_⟩
  · rw [World.carry, hput i]
    by_cases hi : i = idx
    · simpa [hi, hfree] using hlt
    · simpa [hi] using h.counts i
  · split_ifs at hhead with h0
    · refine ⟨idx :: l, List.nodup_cons.mpr ⟨hnot, hnodup⟩,
        ⟨hhead.1, slot, hself, hhead.2 ▸ hkept⟩, fun i => ?_⟩
      simp [World.carry, hfreed, h0, or_iff_not_imp_left]
    · refine ⟨l, hnodup, hhead ▸ hkept, fun i => ?_⟩
      simp only [World.carry, hfreed, h0]
      split_ifs with hi <;> simp [hi, hnot]

lemma Sound.alloc {p : P} (h : Sound w) (hroom : Room w (.alloc p)) :
    ∃ t idx, w.table.alloc p = some (t, idx) ∧ w.carriers idx = 0 ∧ Sound (w.carry t idx 1) := by
  obtain ⟨l, hnodup, hlinks, hmem⟩ := h.free
  cases l with
  | nil =>
    have hhead : w.table.freeHead = nil := hlinks
    have hlen : w.table.slots.length < nil := hroom.resolve_left (not_not.mpr hhead)
    have hidx : w.table.slots.length % 2 ^ 32 = w.table.slots.length :=
      Nat.mod_eq_of_lt (by rw [nil] at hlen; omega)
    have habsent := h.counts w.table.slots.length
    rw [List.getElem?_eq_none (Nat.le_refl _)] at habsent
    rw [alloc_push hhead, hidx]
    exact ⟨_, _, rfl, habsent, h.put (by simpa [Nat.succ_le_iff] using hlen) puts_push hnodup
      hlinks (by simp [← hmem]) (by simp) (by simp)⟩
  | cons i l =>
    obtain ⟨rfl, slot, hslot, hl⟩ := hlinks
    obtain ⟨hidx, -⟩ := List.getElem?_eq_some_iff.mp hslot
    obtain ⟨hnot, hnodup⟩ := List.nodup_cons.mp hnodup
    obtain ⟨slot', hslot', hfree⟩ := (hmem _).mp List.mem_cons_self
    have hcount := h.counts w.table.freeHead
    rw [hslot'] at hcount
    have hfits := h.fits
    rw [ProcTable.alloc, if_pos (by omega), hslot]
    refine ⟨_, _, rfl, hcount.2.2.mp hfree, h.put (by simpa using hfits) (puts_set hidx) hnodup
      hl (fun i => ?_) (by simp) (by simp)⟩
    grind

/-- The count of a slot in use changes; the slot is freed at zero. -/
lemma Sound.recount (h : Sound w) (hslot : w.table.slots[idx]? = some slot)
    (hlive : slot.proc ≠ none) {slot' : ProcSlot P} (hset : t.slots = w.table.slots.set idx slot')
    (hslot' : slot'.refcount = n ∧ n < 2 ^ 32 ∧ (slot'.proc = none ↔ n = 0))
    (hhead : if n = 0 then t.freeHead = idx ∧ slot'.nextFree = w.table.freeHead
      else t.freeHead = w.table.freeHead) : Sound (w.carry t idx n) := by
  obtain ⟨hidx, -⟩ := List.getElem?_eq_some_iff.mp hslot
  have hlen := h.fits
  obtain ⟨l, hnodup, hlinks, hmem⟩ := h.free
  refine h.put (by simpa [hset] using hlen) (hset ▸ puts_set hidx) hnodup hlinks (fun i => ?_)
    hslot' hhead
  rw [hmem]
  refine ⟨fun hi => ⟨hi, ?_⟩, And.left⟩
  rintro rfl
  simp [Freed, hslot, hlive] at hi

lemma Sound.live (h : Sound w) (hpos : 0 < w.carriers idx) :
    ∃ slot p, w.table.slots[idx]? = some slot ∧ slot.proc = some p ∧
      slot.refcount = w.carriers idx ∧ slot.refcount < 2 ^ 32 := by
  have hidx := h.counts idx
  cases hslot : w.table.slots[idx]? with
  | none =>
    rw [hslot] at hidx
    exact absurd hidx (Nat.ne_of_gt hpos)
  | some slot =>
    rw [hslot] at hidx
    obtain ⟨p, hp⟩ := Option.ne_none_iff_exists'.mp fun hfree => Nat.ne_of_gt hpos (hidx.2.2.mp hfree)
    exact ⟨slot, p, rfl, hp, hidx.1, hidx.2.1⟩

lemma Sound.decref (h : Sound w) (hpos : 0 < w.carriers idx) :
    ∃ t freed, w.table.decref idx = some (t, freed) ∧
      Sound (w.carry t idx (w.carriers idx - 1)) := by
  obtain ⟨slot, p, hslot, hp, hcount, hlt⟩ := h.live hpos
  have hlive : slot.proc ≠ none := by simp [hp]
  have hmod : (slot.refcount + (2 ^ 32 - 1)) % 2 ^ 32 = w.carriers idx - 1 := by omega
  simp only [ProcTable.decref, hslot, Option.map_some, hmod]
  split_ifs with h0 <;> refine ⟨_, _, rfl, h.recount hslot hlive rfl ⟨rfl, by omega, ?_⟩ ?_⟩
    <;> simp [h0, hp]

lemma Sound.step {op : Op P} (h : Sound w) (hop : Carried w op ∧ Room w op) :
    Sound (step op w) := by
  obtain ⟨hcarried, hroom⟩ := hop
  cases op with
  | alloc p =>
    obtain ⟨t, idx, halloc, h0, ht⟩ := h.alloc hroom
    simpa only [ProcTable.step, halloc, h0] using ht
  | incref idx =>
    obtain ⟨slot, p, hslot, hp, hcount, hlt⟩ := h.live hcarried
    rw [ProcTable.step, ProcTable.incref, hslot]
    dsimp only [Option.bind_some]
    split_ifs with hlt'
    · rw [hcount]
      exact h.recount hslot (by simp [hp]) rfl ⟨rfl, by omega, by simp [hp]⟩ (by simp)
    · exact h
  | decref idx =>
    obtain ⟨t, freed, hdecref, ht⟩ := h.decref hcarried
    rw [ProcTable.step, hdecref]
    exact ht
  | take idx =>
    obtain ⟨slot, p, hslot, hp, -⟩ := h.live hcarried
    obtain ⟨t, freed, hdecref, ht⟩ := h.decref hcarried
    rw [ProcTable.step, ProcTable.take, ProcTable.peek, hslot, hdecref]
    simpa [hp] using ht

lemma sound_new : Sound (World.new : World P) :=
  ⟨Nat.zero_le _, fun _ => rfl, [], List.nodup_nil, rfl, fun _ => ⟨nofun, fun ⟨_, h, _⟩ => by
    simp [World.new] at h⟩⟩

/-- **The side table keeps its counts** in every run in which no slot is added beyond the indices:
counts and free list are right, and `alloc` gives out a slot without carriers. -/
theorem procTable_sound (ops : List (Op P))
    (hops : Actions.Allowed step (fun w op => Carried w op ∧ Room w op) World.new ops) :
    Sound (Actions.run step ops World.new) ∧
      ∀ p, Room (Actions.run step ops World.new) (.alloc p) →
        ∃ t idx, (Actions.run step ops World.new).table.alloc p = some (t, idx) ∧
          (Actions.run step ops World.new).carriers idx = 0 := by
  have hsound := Actions.run_invariant (fun _ _ h => h.step) sound_new hops
  refine ⟨hsound, fun p hroom => ?_⟩
  obtain ⟨t, idx, halloc, h0, -⟩ := hsound.alloc hroom
  exact ⟨t, idx, halloc, h0⟩

theorem procTable_sound_take :
    Sound (Actions.run step [.alloc (), .incref 0, .take 0] World.new) :=
  (procTable_sound [.alloc (), .incref 0, .take 0]
    ⟨⟨trivial, .inr (by decide)⟩, ⟨Nat.one_pos, trivial⟩, ⟨Nat.two_pos, trivial⟩, trivial⟩).1

/-! ### A table without indices left -/

lemma run_allocs (n : ℕ) :
    let w := Actions.run step (List.replicate n (.alloc ())) World.new
    w.table.slots.length = n ∧ w.table.freeHead = nil ∧ (0 < n → 0 < w.carriers 0) := by
  induction n with
  | zero => simp [World.new]
  | succ n ih =>
    rw [List.replicate_succ', Actions.run_concat]
    obtain ⟨hlen, hhead, hcarry⟩ := ih
    simp only [ProcTable.step, alloc_push hhead, World.carry, hlen]
    refine ⟨by simp [hlen], hhead, fun _ => ?_⟩
    by_cases hn : n % 2 ^ 32 = 0
    · rw [hn, Function.update_self]
      omega
    · rw [Function.update_of_ne (Ne.symm hn)]
      exact hcarry (by omega)

/-- A slot that still has a carrier is given out again. -/
theorem alloc_aliases : ∃ ops : List (Op Unit), Actions.Allowed step Carried World.new ops ∧
    ∃ t idx, (Actions.run step ops World.new).table.alloc () = some (t, idx) ∧
      (Actions.run step ops World.new).carriers idx ≠ 0 := by
  obtain ⟨hlen, hhead, hcarry⟩ := run_allocs (2 ^ 32)
  refine ⟨List.replicate (2 ^ 32) (.alloc ()), ?_, ?_⟩
  · exact Actions.allowed_of_mem (fun _ _ h => by rw [List.eq_of_mem_replicate h]; trivial) _
  · rw [alloc_push hhead, hlen, Nat.mod_self]
    exact ⟨_, _, rfl, Nat.ne_of_gt (hcarry (by decide))⟩

end ProcTable

end CrabScheme
