import CrabScheme.Rocks.Store

/-!
# The durable store against the in-memory store

`save_snapshot` makes two writes: the snapshot record, and the batch that drops the entries it
covers. A crash between them leaves keys at or below the base. They are never dropped later, since
the next trim starts above the base of its time, and the bounds of the log are read off the highest
key. Such a store shows what it should as long as there is a live entry, or the key of the base
itself is the highest; a later call that drops the last live entry leaves `last_index` below
`base_index`.

The invariant `Models` is kept by every event that is not one of the calls just described.
-/

namespace CrabScheme.Rocks

open Raft (Bytes Entry HardState SnapshotMeta MemLogStore)
open Codec (putU8 putU64 fromBeBytes encodeEntry decodeEntry machine U64 EntryFits isizeMax)

/-! ## The calls of the core and the leftover keys -/

/-- A hard state of `u64` values. -/
structure HardFits (hs : HardState) : Prop where
  term : U64 hs.term
  vote : ∀ v ∈ hs.votedFor, U64 v
  commit : U64 hs.commitIndex

/-- A snapshot of `u64` values. -/
structure SnapshotFits (m : SnapshotMeta) : Prop where
  index : U64 m.lastIncludedIndex
  term : U64 m.lastIncludedTerm
  data : U64 m.data.length

/-- **The calls of the Raft core**, by what the store shows it: entries are appended at the tail; a
snapshot is above the base, and either covers a live entry with its term, or the live log is empty
(`compact` folds applied entries, `handle_install_snapshot` first drops a log that does not match).
All data are values a program can hold. -/
def Issued (k : ℕ) (s : RocksLogStore) : Call → Prop
  | .append entries =>
    (∀ q e, entries[q]? = some e → e.index = s.lastIndex + q + 1) ∧
      ∀ e ∈ entries, EntryFits e ∧ (encodeEntry e).length ≤ isizeMax
  | .truncateSuffix _ => True
  | .saveHardState hs => HardFits hs
  | .saveSnapshot m =>
    s.baseIndex < m.lastIncludedIndex ∧
      (s.entryTerm k m.lastIncludedIndex = some m.lastIncludedTerm ∨ s.lastIndex = s.baseIndex) ∧
      SnapshotFits m

/-- **No call empties the log over leftover keys.** While the log family has a key at or below the
base, a truncation keeps a live entry, unless the key of the base is there; a snapshot leaves a live
entry, unless it is cut short before its trim and the key of its index is there. -/
def Tidy (s : RocksLogStore) (made : ℕ) : Call → Prop
  | .truncateSuffix idx =>
    (∃ j ∈ s.keys, j ≤ s.baseIndex) →
      made = 0 ∨ s.baseIndex ∈ s.keys ∨ ∃ j ∈ s.keys, s.baseIndex < j ∧ j < idx
  | .saveSnapshot m =>
    (∃ j ∈ s.keys, j ≤ s.baseIndex) →
      made = 0 ∨ (made = 1 ∧ m.lastIncludedIndex ∈ s.keys) ∨
        ∃ j ∈ s.keys, m.lastIncludedIndex < j
  | _ => True

/-- An event that the core can cause. -/
def Possible (k : ℕ) (s : RocksLogStore) : Event → Prop
  | .call c => Issued k s c
  | .crash c _ => Issued k s c
  | .restart => True

/-- An event that meets the condition. -/
def TidyEvent (s : RocksLogStore) : Event → Prop
  | .call c => Tidy s (s.writes c).length c
  | .crash c made => Tidy s made c
  | .restart => True

/-! ## Records -/

lemma wordAt_of_append {raw : Bytes} (before after : Bytes) {n offset : ℕ} (hn : U64 n)
    (hraw : raw = before ++ (putU64 n ++ after)) (hoffset : before.length = offset) :
    wordAt raw offset = n := by
  have hback := Codec.fromBeBytes_toBeBytes 8 n (by simpa [U64] using hn)
  have hlen : (putU64 n).length = 8 := Codec.length_putU64 n
  unfold wordAt
  rw [hraw, List.drop_left' hoffset, List.take_left' hlen]
  exact hback

lemma load_hard_record {d : Disk} {term vote commit : ℕ} {tag : UInt8} (hterm : U64 term)
    (hvote : U64 vote) (hcommit : U64 commit)
    (hd : d.hard = some (putU64 term ++ (putU8 tag ++ (putU64 vote ++ putU64 commit)))) :
    d.loadHardState = ⟨term, if tag = 1 then some vote else none, commit⟩ := by
  set raw := putU64 term ++ (putU8 tag ++ (putU64 vote ++ putU64 commit)) with hraw
  have hlen : raw.length = 25 := by simp [hraw, putU8]
  have htag : raw[8]? = some tag := by
    rw [List.getElem?_append_right (by simp)]
    simp [putU8]
  have h0 : wordAt raw 0 = term := wordAt_of_append [] _ hterm hraw rfl
  have h9 : wordAt raw 9 = vote :=
    wordAt_of_append (putU64 term ++ putU8 tag) (putU64 commit) hvote (by simp [hraw])
      (by simp [putU8])
  have h17 : wordAt raw 17 = commit :=
    wordAt_of_append (putU64 term ++ putU8 tag ++ putU64 vote) [] hcommit (by simp [hraw])
      (by simp [putU8])
  unfold Disk.loadHardState
  rw [hd]
  simp only [hlen, if_true, htag, h0, h9, h17, Option.some.injEq]

lemma loadHardState_encodeHard {d : Disk} {hs : HardState} (h : HardFits hs)
    (hd : d.hard = some (encodeHard hs)) : d.loadHardState = hs := by
  obtain ⟨term, vote, commit⟩ := hs
  cases vote with
  | none =>
    rw [show encodeHard ⟨term, none, commit⟩ =
      putU64 term ++ (putU8 0 ++ (putU64 0 ++ putU64 commit)) by simp [encodeHard]] at hd
    have hload := load_hard_record h.term (by decide) h.commit hd
    rwa [if_neg (by decide)] at hload
  | some v =>
    rw [show encodeHard ⟨term, some v, commit⟩ =
      putU64 term ++ (putU8 1 ++ (putU64 v ++ putU64 commit)) by simp [encodeHard]] at hd
    have hload := load_hard_record h.term (h.vote v rfl) h.commit hd
    rwa [if_pos rfl] at hload

lemma loadSnapshot_encodeSnapshot {d : Disk} {m : SnapshotMeta} (h : SnapshotFits m)
    (hd : d.snap = some (encodeSnapshot m)) : d.loadSnapshot = some m := by
  obtain ⟨index, term, data⟩ := m
  set raw := encodeSnapshot ⟨index, term, data⟩ with hraw
  have hsplit : raw = putU64 index ++ putU64 term ++ putU64 data.length ++ data := hraw
  have hlen : raw.length = 24 + data.length := by
    simp only [hsplit, List.length_append, Codec.length_putU64]
  have h0 : wordAt raw 0 = index := wordAt_of_append [] _ h.index (by simpa using hsplit) rfl
  have h8 : wordAt raw 8 = term :=
    wordAt_of_append (putU64 index) _ h.term (by simpa using hsplit) (by simp)
  have h16 : wordAt raw 16 = data.length :=
    wordAt_of_append (putU64 index ++ putU64 term) data h.data (by simpa using hsplit) (by simp)
  have hdrop : raw.drop 24 = data := by rw [hsplit, List.drop_left' (by simp)]
  unfold Disk.loadSnapshot
  simp [hd, hlen, h0, h8, h16, hdrop]

lemma readEntry_encodeEntry {k : ℕ} {e : Entry} (h : EntryFits e)
    (hlen : (encodeEntry e).length ≤ isizeMax) : readEntry k (encodeEntry e) = some e := by
  have hread := ((Codec.reads_entry (k := k) h).decodes hlen).round_trip []
  rw [List.append_nil] at hread
  have hdecode : decodeEntry (machine k) (encodeEntry e) = .ok e (encodeEntry e).length := hread
  unfold readEntry
  rw [hdecode]

/-! ## The invariant -/

variable {k : ℕ}

/-- **A disk for an in-memory store.** The records of the hard state and the snapshot are there;
above the base the log family has the live entries; at or below it there may be leftover entries, and
where the live log is empty these include the base. -/
structure DiskModels (k : ℕ) (d : Disk) (mem : MemLogStore) : Prop where
  hardState : d.loadHardState = mem.hardState
  snapshot : d.loadSnapshot = mem.loadSnapshot
  fresh : mem.hasSnapshot = false → mem.baseIndex = 0 ∧ mem.baseTerm = 0
  numbered : mem.Numbered
  readable : ∀ e ∈ mem.log, readEntry k (encodeEntry e) = some e
  live : ∀ j, mem.baseIndex < j → d.log.get? j = (mem.entry j).map encodeEntry
  leftover : ∀ j v, j ≤ mem.baseIndex → d.log.get? j = some v →
    ∃ e, readEntry k v = some e ∧ e.index = j ∧ (j = mem.baseIndex → e.term = mem.baseTerm)
  anchored : mem.log = [] → (∃ j ∈ d.log.keys, j ≤ mem.baseIndex) → mem.baseIndex ∈ d.log.keys

/-- **A store for an in-memory store**: its disk is one, and the cache agrees. -/
structure Models (k : ℕ) (s : RocksLogStore) (mem : MemLogStore) : Prop where
  disk : DiskModels k s.db mem
  baseIndex : s.baseIndex = mem.baseIndex
  baseTerm : s.baseTerm = mem.baseTerm
  hasSnapshot : s.hasSnapshot = mem.hasSnapshot
  lastIndex : s.lastIndex = mem.lastIndex
  lastTerm : s.lastTerm = mem.lastTerm

namespace DiskModels

variable {d : Disk} {mem : MemLogStore}

lemma mem_keys_iff (h : DiskModels k d mem) {j : ℕ} (hj : mem.baseIndex < j) :
    j ∈ d.log.keys ↔ ∃ e ∈ mem.log, e.index = j := by
  rw [SortedMap.mem_keys_iff, h.live j hj]
  simp [h.numbered.entry_eq_some_iff]

/-- **The highest key gives the bounds.** -/
lemma refreshTail_eq {s : RocksLogStore} (h : DiskModels k s.db mem)
    (hbase : s.baseIndex = mem.baseIndex) (hterm : s.baseTerm = mem.baseTerm) :
    s.refreshTail k = { s with lastIndex := mem.lastIndex, lastTerm := mem.lastTerm } := by
  unfold RocksLogStore.refreshTail
  cases hlog : mem.log.getLast? with
  | some e =>
    -- a live entry: the last one has the highest key
    have hne : e ∈ mem.log := List.mem_of_getLast? hlog
    have hlast : mem.lastIndex = e.index := by simp [MemLogStore.lastIndex, hlog]
    have hkey : s.db.log.get? e.index = some (encodeEntry e) := by
      rw [h.live e.index (h.numbered.bounds hne).1,
        h.numbered.entry_eq_some_iff.mpr ⟨hne, rfl⟩]
      rfl
    have hmax : ∀ j ∈ s.db.log.keys, j ≤ e.index := by
      intro j hj
      by_cases hjb : mem.baseIndex < j
      · obtain ⟨e', he', rfl⟩ := (h.mem_keys_iff hjb).mp hj
        exact hlast ▸ (h.numbered.bounds he').2
      · have := (h.numbered.bounds hne).1
        omega
    rw [SortedMap.getLast?_of_greatest hkey hmax]
    simp [h.readable e hne, hlast, MemLogStore.lastTerm, hlog]
  | none =>
    have hnil := List.getLast?_eq_none_iff.mp hlog
    have hlast : mem.lastIndex = mem.baseIndex := by simp [MemLogStore.lastIndex, hlog]
    have hlastTerm : mem.lastTerm = mem.baseTerm := by simp [MemLogStore.lastTerm, hlog]
    have hkeys : ∀ j ∈ s.db.log.keys, j ≤ mem.baseIndex := by
      intro j hj
      by_contra hjb
      obtain ⟨e, he, -⟩ := (h.mem_keys_iff (by omega)).mp hj
      simp [hnil] at he
    cases hentry : s.db.log.entries.getLast? with
    | none => simp [hbase, hterm, hlast, hlastTerm]
    | some b =>
      -- only leftover keys: the base is the highest
      have hmem := List.mem_of_getLast? hentry
      have hkey : b.1 ∈ s.db.log.keys := List.mem_map_of_mem hmem
      have hbaseKey := h.anchored hnil ⟨b.1, hkey, hkeys _ hkey⟩
      have heq : b.1 = mem.baseIndex :=
        le_antisymm (hkeys _ hkey) (SortedMap.le_of_getLast? hentry hbaseKey)
      obtain ⟨e, hread, hindex, heterm⟩ :=
        h.leftover b.1 b.2 (hkeys _ hkey) (SortedMap.mem_entries_iff.mp hmem)
      simp [hread, hindex, heterm heq, heq, hlast, hlastTerm]

lemma refreshTail_models {s : RocksLogStore} (h : DiskModels k s.db mem)
    (hbase : s.baseIndex = mem.baseIndex) (hterm : s.baseTerm = mem.baseTerm)
    (hhas : s.hasSnapshot = mem.hasSnapshot) : Models k (s.refreshTail k) mem := by
  rw [h.refreshTail_eq hbase hterm]
  exact ⟨h, hbase, hterm, hhas, rfl, rfl⟩

/-- **Opening a disk** recovers the bounds. -/
lemma openStore_models (h : DiskModels k d mem) : Models k (.openStore k d) mem := by
  unfold RocksLogStore.openStore
  have hsnap := h.snapshot
  cases hhas : mem.hasSnapshot with
  | false =>
    obtain ⟨hbase, hterm⟩ := h.fresh hhas
    rw [MemLogStore.loadSnapshot, if_neg (by simp [hhas])] at hsnap
    simp only [hsnap]
    exact refreshTail_models h hbase.symm hterm.symm hhas.symm
  | true =>
    rw [MemLogStore.loadSnapshot, if_pos hhas] at hsnap
    simp only [hsnap]
    exact refreshTail_models h rfl rfl hhas.symm

/-! ### One lemma for each write -/

lemma get?_putLog (entries : List Entry) (j : ℕ) :
    (d.write (.putLog entries)).log.get? j =
      ((entries.reverse.find? fun e => decide (e.index = j)).map encodeEntry).or
        (d.log.get? j) := by
  unfold Disk.write
  induction entries using List.reverseRecOn with
  | nil => simp
  | append_singleton entries e ih =>
    simp only [List.foldl_append, List.foldl_cons, List.foldl_nil, SortedMap.get?_insert]
    by_cases hj : e.index = j
    · simp [hj]
    · simpa [hj, Ne.symm hj] using ih

lemma get?_deleteLog (lo hi j : ℕ) :
    (d.write (.deleteLog lo hi)).log.get? j =
      if lo ≤ j ∧ j ≤ hi then none else d.log.get? j := by
  simp only [Disk.write, SortedMap.get?_filterKeys]
  by_cases hj : lo ≤ j ∧ j ≤ hi
  · simp [hj]
  · simp only [hj, if_false]
    rw [if_pos]
    simp only [Bool.not_eq_true', Bool.and_eq_false_iff, decide_eq_false_iff_not]
    omega

lemma mem_keys_deleteLog {lo hi j : ℕ} :
    j ∈ (d.write (.deleteLog lo hi)).log.keys ↔ ¬ (lo ≤ j ∧ j ≤ hi) ∧ j ∈ d.log.keys := by
  rw [SortedMap.mem_keys_iff, SortedMap.mem_keys_iff, get?_deleteLog]
  by_cases hj : lo ≤ j ∧ j ≤ hi <;> simp

section

variable (h : DiskModels k d mem)

include h

lemma putLog {entries : List Entry}
    (hnumbered : ∀ q e, entries[q]? = some e → e.index = mem.lastIndex + q + 1)
    (hread : ∀ e ∈ entries, readEntry k (encodeEntry e) = some e) :
    DiskModels k (d.write (.putLog entries)) (mem.append entries) := by
  have hn := h.numbered.append hnumbered
  have habove : ∀ e ∈ entries, mem.baseIndex < e.index := by
    intro e he
    obtain ⟨q, hq⟩ := List.mem_iff_getElem?.mp he
    have hindex := hnumbered q e hq
    have hlast := h.numbered.lastIndex_eq
    omega
  refine ⟨h.hardState, h.snapshot, h.fresh, hn, ?_, ?_, ?_, ?_⟩
  · intro e he
    exact (List.mem_append.mp he).elim (h.readable e) (hread e)
  · intro j hj
    rw [get?_putLog]
    cases hfind : entries.reverse.find? fun e => decide (e.index = j) with
    | some e =>
      -- a new entry
      have hindex : e.index = j := by simpa using List.find?_some hfind
      have hmem : e ∈ entries := by simpa using List.mem_of_find?_eq_some hfind
      rw [hn.entry_eq_some_iff.mpr ⟨List.mem_append_right _ hmem, hindex⟩]
      rfl
    | none =>
      -- an entry that was there
      have hnone : ∀ e ∈ entries, e.index ≠ j := by simpa using hfind
      have hsame : (mem.append entries).entry j = mem.entry j := by
        ext e
        rw [hn.entry_eq_some_iff, h.numbered.entry_eq_some_iff]
        constructor
        · rintro ⟨he, hej⟩
          exact ⟨(List.mem_append.mp he).resolve_right fun he => hnone e he hej, hej⟩
        · rintro ⟨he, hej⟩
          exact ⟨List.mem_append_left _ he, hej⟩
      rw [hsame]
      exact h.live j hj
  · intro j v hj hv
    rw [get?_putLog] at hv
    have hfind : entries.reverse.find? (fun e => decide (e.index = j)) = none := by
      rw [List.find?_eq_none]
      intro e he
      have := habove e (by simpa using he)
      have hj : j ≤ mem.baseIndex := hj
      simp only [decide_eq_true_eq]
      omega
    rw [hfind] at hv
    exact h.leftover j v hj hv
  · intro hnil hleft
    obtain ⟨hlog, rfl⟩ := List.append_eq_nil_iff.mp hnil
    exact h.anchored hlog hleft

lemma deleteLog {idx : ℕ} (hidx : mem.baseIndex < idx)
    (hanchor : (∃ j ∈ d.log.keys, j ≤ mem.baseIndex) → mem.baseIndex ∈ d.log.keys ∨ ∃ j ∈ d.log.keys, mem.baseIndex < j ∧ j < idx)
    : DiskModels k (d.write (.deleteLog idx mem.lastIndex)) (mem.truncateSuffix idx) := by
  have hn := h.numbered.truncateSuffix idx
  have heq : mem.truncateSuffix idx = { mem with log := mem.log.take (idx - mem.baseIndex - 1) } :=
    if_neg (by omega)
  rw [heq] at hn ⊢
  refine ⟨h.hardState, h.snapshot, h.fresh, hn, ?_, ?_, ?_, ?_⟩
  · intro e he
    exact h.readable e (List.mem_of_mem_take he)
  · intro j hj
    have hj : mem.baseIndex < j := hj
    have hentry : ({ mem with log := mem.log.take (idx - mem.baseIndex - 1) } : MemLogStore).entry j
        = if j < idx then mem.entry j else none := by
      unfold MemLogStore.entry
      simp only [if_neg (show ¬ j ≤ mem.baseIndex by omega), List.getElem?_take]
      by_cases hlt : j < idx
      · rw [if_pos (by omega), if_pos hlt]
      · rw [if_neg (by omega), if_neg hlt]
    rw [hentry, get?_deleteLog, h.live j hj]
    by_cases hlt : j < idx
    · rw [if_neg (by omega), if_pos hlt]
    · rw [if_neg hlt]
      split_ifs with hin
      · rfl
      · have hnone : mem.entry j = none := by
          cases he : mem.entry j with
          | none => rfl
          | some e =>
            obtain ⟨hmem, rfl⟩ := h.numbered.entry_eq_some_iff.mp he
            have := (h.numbered.bounds hmem).2
            omega
        rw [hnone]
  · intro j v hj hv
    have hj : j ≤ mem.baseIndex := hj
    rw [get?_deleteLog, if_neg (by omega)] at hv
    exact h.leftover j v hj hv
  · rintro hnil ⟨j, hj, hle⟩
    show mem.baseIndex ∈ _
    rw [mem_keys_deleteLog] at hj ⊢
    rcases hanchor ⟨j, hj.2, hle⟩ with hbase | ⟨i, hi, hbi, hlt⟩
    · exact ⟨by omega, hbase⟩
    · -- a live entry would be left
      obtain ⟨e, he, -⟩ := (h.mem_keys_iff hbi).mp hi
      rcases List.take_eq_nil_iff.mp hnil with hzero | hlog
      · omega
      · simp [hlog] at he

lemma putHard {hs : HardState} (hfits : HardFits hs) :
    DiskModels k (d.write (.putHard (encodeHard hs))) (mem.saveHardState hs) where
  hardState := loadHardState_encodeHard hfits rfl
  snapshot := h.snapshot
  fresh := h.fresh
  numbered := h.numbered
  readable := h.readable
  live := h.live
  leftover := h.leftover
  anchored := h.anchored

lemma putSnap {m : SnapshotMeta} (hfits : SnapshotFits m)
    (hbase : mem.baseIndex < m.lastIncludedIndex)
    (hterm : mem.entryTerm m.lastIncludedIndex = some m.lastIncludedTerm ∨ mem.log = [])
    (hanchor : (∃ j ∈ d.log.keys, j ≤ mem.baseIndex) → m.lastIncludedIndex ∈ d.log.keys ∨ ∃ j ∈ d.log.keys, m.lastIncludedIndex < j)
    : DiskModels k (d.write (.putSnap (encodeSnapshot m))) (mem.saveSnapshot m) := by
  have hn := h.numbered.saveSnapshot hbase.le
  have hlog : (mem.saveSnapshot m).log =
      mem.log.filter fun e => decide (m.lastIncludedIndex < e.index) := rfl
  refine ⟨h.hardState, loadSnapshot_encodeSnapshot hfits rfl, nofun, hn, ?_, ?_, ?_, ?_⟩
  · intro e he
    exact h.readable e (List.mem_filter.mp he).1
  · intro j hj
    have hj : m.lastIncludedIndex < j := hj
    have hsame : (mem.saveSnapshot m).entry j = mem.entry j := by
      ext e
      rw [hn.entry_eq_some_iff, h.numbered.entry_eq_some_iff, hlog, List.mem_filter]
      constructor
      · rintro ⟨⟨he, -⟩, hej⟩
        exact ⟨he, hej⟩
      · rintro ⟨he, rfl⟩
        exact ⟨⟨he, by simpa using hj⟩, rfl⟩
    rw [hsame]
    exact h.live j (by omega)
  · intro j v hj hv
    show ∃ e : Entry, _ ∧ _ ∧ (j = m.lastIncludedIndex → e.term = m.lastIncludedTerm)
    by_cases hold : j ≤ mem.baseIndex
    · obtain ⟨e, hread, hindex, -⟩ := h.leftover j v hold hv
      exact ⟨e, hread, hindex, fun hj => absurd hj (by omega)⟩
    · -- an entry that was live
      have hv : d.log.get? j = some v := hv
      rw [h.live j (by omega)] at hv
      obtain ⟨e, he, rfl⟩ := Option.map_eq_some_iff.mp hv
      obtain ⟨hmem, hindex⟩ := h.numbered.entry_eq_some_iff.mp he
      refine ⟨e, h.readable e hmem, hindex, ?_⟩
      rintro rfl
      rcases hterm with hterm | hnil
      · rw [MemLogStore.entryTerm, he] at hterm
        exact Option.some.inj hterm
      · simp [hnil] at hmem
  · rintro hnil ⟨j, hj, -⟩
    show m.lastIncludedIndex ∈ d.log.keys
    have hnone : ∀ i ∈ d.log.keys, i ≤ m.lastIncludedIndex := by
      intro i hi
      by_contra hlt
      obtain ⟨e, he, hei⟩ := (h.mem_keys_iff (by omega)).mp hi
      have hmem : e ∈ (mem.saveSnapshot m).log := by
        rw [hlog, List.mem_filter]
        exact ⟨he, by simp only [decide_eq_true_eq]; omega⟩
      simp [hnil] at hmem
    rcases hterm with hterm | hempty
    · obtain ⟨e, he, -⟩ := Option.map_eq_some_iff.mp hterm
      rw [SortedMap.mem_keys_iff, h.live _ hbase, he]
      exact ⟨_, rfl⟩
    · have hold : j ≤ mem.baseIndex := by
        by_contra hlt
        obtain ⟨e, he, -⟩ := (h.mem_keys_iff (by omega)).mp hj
        simp [hempty] at he
      rcases hanchor ⟨j, hj, hold⟩ with hkey | ⟨i, hi, hlt⟩
      · exact hkey
      · exact absurd (hnone i hi) (by omega)

/-- The trim after a snapshot drops keys that are not above the base; where there is no live entry,
it drops all of them. -/
lemma trim {lo : ℕ} (hanchor : mem.log = [] → ∀ j ∈ d.log.keys, lo ≤ j) :
    DiskModels k (d.write (.deleteLog lo mem.baseIndex)) mem := by
  refine ⟨h.hardState, h.snapshot, h.fresh, h.numbered, h.readable, ?_, ?_, ?_⟩
  · intro j hj
    rw [get?_deleteLog, if_neg (by omega)]
    exact h.live j hj
  · intro j v hj hv
    rw [get?_deleteLog] at hv
    split_ifs at hv
    exact h.leftover j v hj hv
  · rintro hnil ⟨j, hj, hle⟩
    rw [mem_keys_deleteLog] at hj
    exact absurd ⟨hanchor hnil j hj.2, hle⟩ hj.1

end

end DiskModels

/-! ## Calls -/

namespace Models

variable {s : RocksLogStore} {mem : MemLogStore}

lemma entry_eq (h : Models k s mem) (idx : ℕ) : s.entry k idx = mem.entry idx := by
  unfold RocksLogStore.entry
  rw [h.baseIndex, h.lastIndex]
  split_ifs with hout
  · cases he : mem.entry idx with
    | none => rfl
    | some e =>
      obtain ⟨hmem, rfl⟩ := h.disk.numbered.entry_eq_some_iff.mp he
      have := h.disk.numbered.bounds hmem
      omega
  · rw [h.disk.live idx (by omega)]
    cases he : mem.entry idx with
    | none => rfl
    | some e =>
      rw [Option.map_some, Option.bind_some]
      exact h.disk.readable e (h.disk.numbered.entry_eq_some_iff.mp he).1

lemma onMem_of_writes_nil (h : Models k s mem) {c : Call} (hc : s.writes c = []) :
    c.onMem mem = mem := by
  cases c with
  | append entries =>
    have hnil : entries = [] := by
      by_contra hne
      simp [RocksLogStore.writes, hne] at hc
    subst hnil
    simp [Call.onMem, MemLogStore.append]
  | truncateSuffix idx =>
    have hcut : mem.lastIndex < max idx (mem.baseIndex + 1) := by
      by_contra hle
      rw [← h.lastIndex, ← h.baseIndex] at hle
      simp [RocksLogStore.writes, RocksLogStore.cut, hle] at hc
    have hlast := h.disk.numbered.lastIndex_eq
    simp only [Call.onMem, MemLogStore.truncateSuffix]
    split_ifs with hidx
    · have hnil : mem.log = [] := List.length_eq_zero_iff.mp (by omega)
      rw [← hnil]
    · rw [List.take_of_length_le (by omega)]
  | saveHardState hs => cases hc
  | saveSnapshot m => cases hc

lemma take_singleton_succ {α : Type} (a : α) (n : ℕ) : [a].take (n + 1) = [a] := by simp

section

variable (h : Models k s mem)

include h

/-- **The disk after a call, or after its first writes.** -/
lemma disk_after {c : Call} (hissued : Issued k s c) {n : ℕ} (htidy : Tidy s (n + 1) c)
    (hwrites : s.writes c ≠ []) :
    DiskModels k (s.db.writeAll ((s.writes c).take (n + 1))) (c.onMem mem) := by
  cases c with
  | append entries =>
    have hw : s.writes (.append entries) = [.putLog entries] := by
      by_cases hne : entries.isEmpty
      · exact absurd (if_pos hne) hwrites
      · exact if_neg hne
    rw [hw, take_singleton_succ]
    exact h.disk.putLog (h.lastIndex ▸ hissued.1)
      fun e he => readEntry_encodeEntry (hissued.2 e he).1 (hissued.2 e he).2
  | truncateSuffix idx =>
    have hw : s.writes (.truncateSuffix idx) = [.deleteLog (s.cut idx) s.lastIndex] := by
      by_cases hcut : s.lastIndex < s.cut idx
      · exact absurd (if_pos hcut) hwrites
      · exact if_neg hcut
    have hmem : mem.truncateSuffix idx = mem.truncateSuffix (s.cut idx) := by
      unfold RocksLogStore.cut
      rw [h.baseIndex]
      by_cases hidx : idx ≤ mem.baseIndex
      · simp [MemLogStore.truncateSuffix, hidx, max_eq_right (show idx ≤ mem.baseIndex + 1 by omega)]
      · rw [max_eq_left (by omega)]
    have hdisk : DiskModels k (s.db.write (.deleteLog (s.cut idx) mem.lastIndex))
        (mem.truncateSuffix (s.cut idx)) := by
      refine h.disk.deleteLog (h.baseIndex ▸ Nat.lt_of_succ_le (le_max_right _ _)) ?_
      intro hleft
      rw [← h.baseIndex] at hleft ⊢
      rcases htidy hleft with hzero | hbase | ⟨j, hj, hbj, hlt⟩
      · omega
      · exact .inl hbase
      · exact .inr ⟨j, hj, hbj, lt_of_lt_of_le hlt (le_max_left _ _)⟩
    rw [hw, take_singleton_succ, Call.onMem, hmem, h.lastIndex]
    exact hdisk
  | saveHardState hs =>
    have hw : s.writes (.saveHardState hs) = [.putHard (encodeHard hs)] := rfl
    rw [hw, take_singleton_succ]
    exact h.disk.putHard hissued
  | saveSnapshot m =>
    obtain ⟨hbase, hterm, hfits⟩ := hissued
    have hterm : mem.entryTerm m.lastIncludedIndex = some m.lastIncludedTerm ∨ mem.log = [] := by
      rcases hterm with hterm | hempty
      · exact .inl (by rwa [RocksLogStore.entryTerm, h.entry_eq] at hterm)
      · have hlast := h.disk.numbered.lastIndex_eq
        rw [h.lastIndex, h.baseIndex] at hempty
        exact .inr (List.length_eq_zero_iff.mp (by omega))
    rw [h.baseIndex] at hbase
    have hput : DiskModels k (s.db.write (.putSnap (encodeSnapshot m))) (mem.saveSnapshot m) := by
      refine h.disk.putSnap hfits hbase hterm ?_
      intro hleft
      rw [← h.baseIndex] at hleft
      rcases htidy hleft with hzero | ⟨-, hkey⟩ | habove
      · omega
      · exact .inl hkey
      · exact .inr habove
    cases n with
    | zero => exact hput
    | succ n =>
      have hw : (s.writes (.saveSnapshot m)).take (n + 1 + 1) =
          [.putSnap (encodeSnapshot m), .deleteLog (s.baseIndex + 1) m.lastIncludedIndex] := by
        simp [RocksLogStore.writes]
      rw [hw]
      refine hput.trim ?_
      -- over leftover keys the trim leaves a live entry
      intro hnil j hj
      by_contra hlt
      rcases htidy ⟨j, hj, by omega⟩ with hzero | ⟨hone, -⟩ | ⟨i, hi, habove⟩
      · omega
      · omega
      · obtain ⟨e, he, -⟩ := (hput.mem_keys_iff habove).mp hi
        simp [hnil] at he

/-- **A completed call.** -/
lemma call {c : Call} (hissued : Issued k s c) (htidy : Tidy s (s.writes c).length c)
    : Models k (s.perform k c) (c.onMem mem) := by
  have hdisk : DiskModels k (s.db.writeAll (s.writes c)) (c.onMem mem) := by
    cases hw : s.writes c with
    | nil =>
      rw [h.onMem_of_writes_nil hw]
      exact h.disk
    | cons w ws =>
      have hafter := h.disk_after hissued (by simpa [hw] using htidy) (by simp [hw])
      rwa [hw, ← List.length_cons, List.take_length] at hafter
  cases c with
  | append entries =>
    have hlog : (mem.append entries).log = mem.log ++ entries := rfl
    cases hlast : entries.getLast? with
    | none =>
      obtain rfl := List.getLast?_eq_none_iff.mp hlast
      have hsame : mem.append [] = mem := by simp [MemLogStore.append]
      exact ⟨hdisk, h.baseIndex, h.baseTerm, h.hasSnapshot,
        h.lastIndex.trans (by rw [Call.onMem, hsame]), h.lastTerm.trans (by rw [Call.onMem, hsame])⟩
    | some e =>
      have hstore : s.perform k (.append entries) = { s with
          db := s.db.writeAll (s.writes (.append entries))
          lastIndex := e.index
          lastTerm := e.term } := by
        simp only [RocksLogStore.perform, hlast]
      rw [hstore]
      refine ⟨hdisk, h.baseIndex, h.baseTerm, h.hasSnapshot, ?_, ?_⟩
      · simp [Call.onMem, MemLogStore.lastIndex, hlog, hlast]
      · simp [Call.onMem, MemLogStore.lastTerm, hlog, hlast]
  | truncateSuffix idx =>
    obtain ⟨hbase, hterm, hhas⟩ : mem.baseIndex = (mem.truncateSuffix idx).baseIndex ∧
        mem.baseTerm = (mem.truncateSuffix idx).baseTerm ∧
        mem.hasSnapshot = (mem.truncateSuffix idx).hasSnapshot := by
      unfold MemLogStore.truncateSuffix
      split <;> exact ⟨rfl, rfl, rfl⟩
    by_cases hcut : s.lastIndex < s.cut idx
    · have hsame : (Call.truncateSuffix idx).onMem mem = mem :=
        h.onMem_of_writes_nil (if_pos hcut)
      have hstore : s.perform k (.truncateSuffix idx) =
          { s with db := s.db.writeAll (s.writes (.truncateSuffix idx)) } := if_pos hcut
      rw [hstore]
      exact ⟨hdisk, h.baseIndex.trans hbase, h.baseTerm.trans hterm,
        h.hasSnapshot.trans hhas, h.lastIndex.trans (by rw [hsame]),
        h.lastTerm.trans (by rw [hsame])⟩
    · have hstore : s.perform k (.truncateSuffix idx) =
          { s with db := s.db.writeAll (s.writes (.truncateSuffix idx)) }.refreshTail k :=
        if_neg hcut
      rw [hstore]
      exact DiskModels.refreshTail_models hdisk (h.baseIndex.trans hbase)
        (h.baseTerm.trans hterm) (h.hasSnapshot.trans hhas)
  | saveHardState hs => exact ⟨hdisk, h.baseIndex, h.baseTerm, h.hasSnapshot, h.lastIndex, h.lastTerm⟩
  | saveSnapshot m =>
    exact DiskModels.refreshTail_models hdisk rfl rfl rfl

/-- **A call that a crash cuts short** has happened or not. -/
lemma crash {c : Call} (hissued : Issued k s c) {made : ℕ} (htidy : Tidy s made c) :
    Models k (.openStore k (s.db.writeAll ((s.writes c).take made))) mem ∨
      Models k (.openStore k (s.db.writeAll ((s.writes c).take made))) (c.onMem mem) := by
  cases made with
  | zero => exact .inl h.disk.openStore_models
  | succ n =>
    by_cases hw : s.writes c = []
    · rw [hw]
      exact .inl h.disk.openStore_models
    · exact .inr (h.disk_after hissued htidy hw).openStore_models

lemma live_entries : (s.db.log.entries.filter fun b => decide (mem.baseIndex < b.1)) =
      mem.log.map fun e => (e.index, encodeEntry e) := by
  have hn := h.disk.numbered
  refine SortedMap.entries_ext (s.db.log.sorted.filter _) ?_ fun b => ?_
  · refine List.pairwise_map.mpr (List.pairwise_iff_getElem.mpr fun i j hi hj hij => ?_)
    have h1 := hn i _ (List.getElem?_eq_getElem hi)
    have h2 := hn j _ (List.getElem?_eq_getElem hj)
    omega
  · obtain ⟨j, v⟩ := b
    rw [List.mem_filter, SortedMap.mem_entries_iff, List.mem_map]
    constructor
    · rintro ⟨hget, hj⟩
      have hj : mem.baseIndex < j := by simpa using hj
      rw [h.disk.live j hj] at hget
      obtain ⟨e, he, rfl⟩ := Option.map_eq_some_iff.mp hget
      obtain ⟨hmem, rfl⟩ := hn.entry_eq_some_iff.mp he
      exact ⟨e, hmem, rfl⟩
    · rintro ⟨e, he, hpair⟩
      obtain ⟨rfl, rfl⟩ := Prod.mk.injEq _ _ _ _ ▸ hpair
      have hbase := (hn.bounds he).1
      rw [h.disk.live _ hbase, hn.entry_eq_some_iff.mpr ⟨he, rfl⟩]
      exact ⟨rfl, by simpa using hbase⟩

lemma entries_eq (lo hi : ℕ) : s.entries k lo hi = mem.entries lo hi := by
  have hsplit : (s.db.log.entries.filter fun b =>
      decide (max lo (s.baseIndex + 1) ≤ b.1) && decide (b.1 ≤ hi)) =
      (mem.log.map fun e => (e.index, encodeEntry e)).filter fun b =>
        decide (lo ≤ b.1) && decide (b.1 ≤ hi) := by
    rw [← h.live_entries, List.filter_filter, h.baseIndex]
    refine List.filter_congr fun b _ => ?_
    rw [Bool.eq_iff_iff]
    simp only [Bool.and_eq_true, decide_eq_true_eq]
    omega
  unfold RocksLogStore.entries MemLogStore.entries
  rw [hsplit, List.filter_map, List.filterMap_map]
  have hread : ∀ e ∈ mem.log.filter (fun e => decide (lo ≤ e.index) && decide (e.index ≤ hi)),
      ((fun b : ℕ × Bytes => readEntry k b.2) ∘ fun e => (e.index, encodeEntry e)) e = some e := by
    intro e he
    rw [Function.comp_apply]
    exact h.disk.readable e (List.mem_filter.mp he).1
  have hfilter : (mem.log.filter fun e => decide (lo ≤ e.index) && decide (e.index ≤ hi) &&
      decide (mem.baseIndex < e.index)) =
      mem.log.filter fun e => decide (lo ≤ e.index) && decide (e.index ≤ hi) := by
    refine List.filter_congr fun e he => ?_
    simp [(h.disk.numbered.bounds he).1]
  have hall := (List.filterMap_congr hread).trans List.filterMap_some
  rw [hfilter]
  exact hall

/-- **What the invariant shows.** -/
lemma shows : Shows k s mem := by
  have hlast := h.disk.numbered.lastIndex_eq
  refine ⟨?_, h.baseIndex, h.baseTerm, h.lastIndex, h.lastTerm, ?_, h.entry_eq, h.disk.hardState,
    h.disk.snapshot⟩
  · rw [h.baseIndex, h.lastIndex]
    omega
  · exact h.entries_eq

end

end Models

/-! ## Runs -/

section Runs

lemma empty_models : DiskModels k .empty .new where
  hardState := rfl
  snapshot := rfl
  fresh := fun _ => ⟨rfl, rfl⟩
  numbered := fun q e h => by simp [MemLogStore.new] at h
  readable := fun e h => by simp [MemLogStore.new] at h
  live := fun j _ => by simp [Disk.empty, MemLogStore.entry, MemLogStore.new]
  leftover := fun j v _ h => by simp [Disk.empty] at h
  anchored := fun _ h => by simp [Disk.empty, SortedMap.empty, SortedMap.keys] at h

/-- **The durable store shows what the in-memory store shows.** In every run of calls of the Raft
core, with crashes between any two writes and restarts, where no call empties the log over leftover
keys, the store shows what the in-memory store shows after the completed calls and some of the
interrupted ones; in particular its bounds are in order. -/
theorem rocks_shows_mem (k : ℕ) (es : List Event)
    (hes : Actions.Allowed (step k) (fun s e => Possible k s e ∧ TidyEvent s e)
      (.openStore k .empty) es) :
    ∃ cs, Kept es cs ∧ Shows k (run k es) (memAfter cs) := by
  suffices hmodels : ∃ cs, Kept es cs ∧ Models k (run k es) (memAfter cs) by
    obtain ⟨cs, hkept, h⟩ := hmodels
    exact ⟨cs, hkept, h.shows⟩
  induction es using List.reverseRecOn with
  | nil => exact ⟨[], .nil, empty_models.openStore_models⟩
  | append_singleton es e ih =>
    rw [Actions.allowed_concat] at hes
    obtain ⟨cs, hkept, h⟩ := ih hes.1
    obtain ⟨hpossible, htidy⟩ := hes.2
    have hafter : ∀ c, memAfter (cs ++ [c]) = c.onMem (memAfter cs) := fun c => by
      simp [memAfter]
    rw [run, Actions.run_concat]
    cases e with
    | call c => exact ⟨cs ++ [c], .completed c hkept, hafter c ▸ h.call hpossible htidy⟩
    | crash c made =>
      rcases h.crash hpossible htidy with hlost | hmade
      · exact ⟨cs, .lost c made hkept, hlost⟩
      · exact ⟨cs ++ [c], .made c made hkept, hafter c ▸ hmade⟩
    | restart => exact ⟨cs, .restart hkept, h.disk.openStore_models⟩

end Runs

/-! ## Leftover keys -/

/-- Two entries are folded into a snapshot, the process dies before the trim, and one entry is
appended after the restart. -/
def interrupted : List Event :=
  [.call (.append [⟨1, 1, .noop⟩]), .call (.append [⟨1, 2, .noop⟩]),
    .crash (.saveSnapshot ⟨2, 1, [7]⟩) 1, .call (.append [⟨1, 3, .noop⟩])]

/-- The appended entry is folded into the next snapshot, and the store is opened again. -/
def emptied : List Event := interrupted ++ [Event.call (.saveSnapshot ⟨3, 1, [8]⟩), .restart]

lemma issued_noop (k : ℕ) {s : RocksLogStore} {n : ℕ} (hlast : s.lastIndex = n) (hn : U64 (n + 1)) :
    Issued k s (.append [⟨1, n + 1, .noop⟩]) := by
  constructor
  · intro q e he
    cases q with
    | zero =>
      obtain rfl := Option.some.inj he
      simp [hlast]
    | succ q => simp at he
  · intro e he
    obtain rfl := List.mem_singleton.mp he
    exact ⟨⟨(by decide : U64 1), hn, trivial⟩, by
      simp [encodeEntry, Codec.putEntry, Codec.putPayload, putU8, isizeMax]⟩

lemma interrupted_possible :
    Actions.Allowed (step 64) (Possible 64) (.openStore 64 .empty) interrupted :=
  ⟨issued_noop 64 (by decide +kernel) (by decide), issued_noop 64 (by decide +kernel) (by decide),
    ⟨by decide +kernel, .inl (by decide +kernel), by decide, by decide, by decide⟩,
    issued_noop 64 (by decide +kernel) (by decide), trivial⟩

theorem rocks_shows_mem_interrupted :
    ∃ cs, Kept interrupted cs ∧ Shows 64 (run 64 interrupted) (memAfter cs) := by
  obtain ⟨h1, h2, h3, h4, -⟩ := interrupted_possible
  have htidy : ¬ ∃ j ∈ (run 64 (interrupted.take 2)).keys, j ≤ 0 := by decide +kernel
  exact rocks_shows_mem 64 interrupted
    ⟨⟨h1, trivial⟩, ⟨h2, trivial⟩, ⟨h3, fun hleft => absurd hleft htidy⟩, ⟨h4, trivial⟩, trivial⟩

/-- **Leftover keys break the bounds.** After the second snapshot the highest key is a leftover one:
the last index is below the base. -/
theorem leftover_keys_break_bounds :
    Actions.Allowed (step 64) (Possible 64) (.openStore 64 .empty) emptied ∧
      (run 64 emptied).baseIndex = 3 ∧ (run 64 emptied).lastIndex = 2 := by
  refine ⟨Actions.allowed_append.mpr ⟨interrupted_possible, ?_, trivial, trivial⟩,
    by decide +kernel, by decide +kernel⟩
  exact ⟨by decide +kernel, .inl (by decide +kernel), by decide, by decide, by decide⟩

end CrabScheme.Rocks
