import Mathlib.Order.Interval.Finset.Nat
import ChainGraph.Parser.SingleBlockLoader
import ChainGraph.Laws.Varint

/-!
# What the index yields

Parsing a record never panics, so a scan works through the entries of all records that parse, in
the order of their keys. `load_batch_index` reads entries until it has seen as many different
heights of its range as the range has, and keeps the last entry it read at each of them. Two
ranges therefore agree on a height exactly when every entry at that height is read for both or for
neither. Nothing tells apart two entries at one height: `get_main_chain` fails on them.
-/

namespace ChainGraph

namespace BlockIndex

open Foundation

/-! ## Parsing does not panic -/

theorem readVarint_cases {data : List UInt8} {cursor : ℕ} (inside : cursor ≤ data.length) :
    (∃ v next, next ≤ data.length ∧ readVarint data cursor = .ok (v, next)) ∨
      ∃ e, readVarint data cursor = .error (.returned e) := by
  rw [readVarint, Checked.sliceFrom_of_le inside]
  rcases decodeVarint_cases (data.drop cursor) with ⟨v, starts, read⟩ | ⟨e, refused⟩
  · refine Or.inl ⟨v, cursor + (encodeVarint v).length, ?_, ?_⟩
    · have short := starts.length_le
      rw [List.length_drop] at short
      omega
    · simp only [Except.bind, bind, read, Checked.mapErr]
      rfl
  · refine Or.inr ⟨.ParseError s!"Varint decode: {e.display}", ?_⟩
    simp only [Except.bind, bind, refused, Checked.mapErr]

/-- Reading a number at a cursor inside the data, and going on after it. -/
theorem safe_readVarint {α : Type} {data : List UInt8} {cursor : ℕ}
    {next : UInt64 × ℕ → Checked IndexError α} (inside : cursor ≤ data.length)
    (rest : ∀ v k, k ≤ data.length → (next (v, k)).Safe) :
    (readVarint data cursor >>= next).Safe := by
  rcases readVarint_cases inside with ⟨v, k, inside', read⟩ | ⟨e, refused⟩
  · rw [read]
    exact rest v k inside'
  · rw [refused]
    exact Checked.safe_returned e

theorem safe_parseBlockRecord (hash : String) (data : List UInt8) :
    (parseBlockRecord hash data).Safe := by
  unfold parseBlockRecord
  apply safe_readVarint (Nat.zero_le _)
  intro _ _ inside
  apply safe_readVarint inside
  intro height _ inside
  apply safe_readVarint inside
  intro status _ inside
  apply safe_readVarint inside
  intro txCount _ inside
  dsimp only
  split
  · exact Checked.safe_returned _
  · apply safe_readVarint inside
    intro fileNum _ inside
    apply safe_readVarint inside
    intro fileOff _ _
    exact Checked.safe_ok _

/-- The entry of a record, if it is a block's and parses. -/
def accept (record : List UInt8 × List UInt8) : Option BlockIndexEntry :=
  match entryOf record with
  | .ok entry => entry
  | .error _ => none

theorem entryOf_eq (record : List UInt8 × List UInt8) : entryOf record = .ok (accept record) := by
  have total : ∃ entry, entryOf record = .ok entry := by
    unfold entryOf
    split
    · have safe := safe_parseBlockRecord (hexEncode record.1.tail) record.2
      cases parsed : parseBlockRecord (hexEncode record.1.tail) record.2 with
      | ok entry => exact ⟨_, rfl⟩
      | error halt =>
        cases halt with
        | panicked p => exact absurd parsed (safe p)
        | returned e => exact ⟨none, rfl⟩
    · exact ⟨none, rfl⟩
  obtain ⟨entry, ran⟩ := total
  rw [accept, ran]

/-- The entries of a database, in the order of their keys. -/
def accepted (db : IndexDb) : List BlockIndexEntry := db.records.filterMap accept

/-! ## Entries are told apart by their hash -/

theorem digitChar_inj {a b : ℕ} (ha : a < 16) (hb : b < 16) (same : a.digitChar = b.digitChar) :
    a = b := by
  have every : ∀ a b : Fin 16, a.val.digitChar = b.val.digitChar → a = b := by decide
  exact congrArg Fin.val (every ⟨a, ha⟩ ⟨b, hb⟩ same)

theorem hexEncode_inj {a b : List UInt8} (same : hexEncode a = hexEncode b) : a = b := by
  rw [hexEncode, hexEncode, String.ofList_inj] at same
  induction a generalizing b with
  | nil =>
    cases b with
    | nil => rfl
    | cons y b => simp at same
  | cons x a ih =>
    cases b with
    | nil => simp at same
    | cons y b =>
      have hx := x.toNat_lt
      have hy := y.toNat_lt
      simp only [List.flatMap_cons, List.cons_append, List.nil_append, List.cons.injEq] at same
      obtain ⟨high, low, rest⟩ := same
      have high := digitChar_inj (by omega) (by omega) high
      have low := digitChar_inj (by omega) (by omega) low
      rw [ih rest, UInt8.toNat_inj.mp (by omega : x.toNat = y.toNat)]

theorem fields_of_parsed {hash : String} {data : List UInt8} {entry : BlockIndexEntry}
    (ok : parseBlockRecord hash data = .ok entry) :
    entry.hash = hash ∧ entry.height < 2 ^ 32 := by
  unfold parseBlockRecord at ok
  obtain ⟨_, -, ok⟩ := Checked.bind_eq_ok.mp ok
  obtain ⟨height, -, ok⟩ := Checked.bind_eq_ok.mp ok
  obtain ⟨status, -, ok⟩ := Checked.bind_eq_ok.mp ok
  obtain ⟨txCount, -, ok⟩ := Checked.bind_eq_ok.mp ok
  dsimp only at ok
  split at ok
  · cases ok
  · obtain ⟨fileNum, -, ok⟩ := Checked.bind_eq_ok.mp ok
    obtain ⟨fileOff, -, ok⟩ := Checked.bind_eq_ok.mp ok
    cases ok
    exact ⟨rfl, Nat.mod_lt _ (by decide)⟩

theorem accept_eq_some {record : List UInt8 × List UInt8} {entry : BlockIndexEntry}
    (h : accept record = some entry) :
    ∃ hash, record.1 = 0x62 :: hash ∧ entry.hash = hexEncode hash ∧ entry.height < 2 ^ 32 := by
  have ran := entryOf_eq record
  rw [h] at ran
  unfold entryOf at ran
  split at ran
  · rename_i block
    obtain ⟨hash, shape⟩ := List.head?_eq_some_iff.mp block.2
    rw [shape, List.tail_cons] at ran
    cases parsed : parseBlockRecord (hexEncode hash) record.2 with
    | ok parsed' =>
      rw [parsed] at ran
      cases ran
      obtain ⟨named, small⟩ := fields_of_parsed parsed
      exact ⟨hash, shape, named, small⟩
    | error halt =>
      rw [parsed] at ran
      cases halt <;> cases ran
  · cases ran

theorem height_lt_of_accepted {db : IndexDb} {entry : BlockIndexEntry} (mem : entry ∈ accepted db) :
    entry.height < 2 ^ 32 := by
  obtain ⟨record, -, found⟩ := List.mem_filterMap.mp mem
  obtain ⟨_, -, -, small⟩ := accept_eq_some found
  exact small

/-- No entry of a database occurs twice. -/
theorem nodup_accepted (db : IndexDb) : (accepted db).Nodup := by
  have keys := db.distinct
  unfold accepted
  generalize db.records = records at keys
  induction records with
  | nil => exact List.nodup_nil
  | cons record records ih =>
    rw [List.map_cons, List.nodup_cons] at keys
    have rest := ih keys.2
    rw [List.filterMap_cons]
    cases found : accept record with
    | none => exact rest
    | some entry =>
      refine List.nodup_cons.mpr ⟨fun again => keys.1 ?_, rest⟩
      obtain ⟨other, mem, found'⟩ := List.mem_filterMap.mp again
      obtain ⟨hash, key, named, -⟩ := accept_eq_some found
      obtain ⟨hash', key', named', -⟩ := accept_eq_some found'
      have same := hexEncode_inj (named.symm.trans named')
      rw [key, same, ← key']
      exact List.mem_map_of_mem mem

/-! ## The scan of the whole index -/

theorem scanChain_eq (keep : ℕ → Bool) (records : List (List UInt8 × List UInt8)) :
    scanChain keep records = .ok ((records.filterMap accept).filter fun x => keep x.height) := by
  induction records with
  | nil => rfl
  | cons record records ih =>
    rw [scanChain, entryOf_eq, List.filterMap_cons]
    simp only [Except.bind, bind, ih]
    cases accept record with
    | none => rfl
    | some entry =>
      rw [List.filter_cons]
      rfl

/-- Two entries at consecutive heights. -/
def Follows (a b : BlockIndexEntry) : Prop := b.height = asU32 (a.height + 1)

theorem verifySequential_eq_ok {chain : List BlockIndexEntry} :
    verifySequential chain = .ok () ↔ chain.IsChain Follows := by
  induction chain with
  | nil => simp [verifySequential]
  | cons a chain ih =>
    cases chain with
    | nil => simp [verifySequential]
    | cons b chain =>
      rw [verifySequential, List.isChain_cons_cons, Follows]
      by_cases next : b.height = asU32 (a.height + 1)
      · simp only [next, ne_eq, not_true_eq_false, if_false, true_and]
        exact ih
      · simp [next]

/-- What a successful scan returns: the entries that are kept, sorted, at consecutive heights. -/
theorem chainWith_eq_ok {db : IndexDb} {keep : ℕ → Bool} {chain : List BlockIndexEntry} :
    chainWith db keep = .ok chain ↔
      db.fault = none ∧ (accepted db).filter (fun x => keep x.height) ≠ [] ∧
        chain = ((accepted db).filter fun x => keep x.height).mergeSort
          (fun a b => a.height ≤ b.height) ∧
        chain.IsChain Follows := by
  unfold chainWith newIter accepted
  cases db.fault with
  | some e => simp [bind, Except.bind]
  | none =>
    rw [scanChain_eq]
    simp only [Except.bind, bind]
    generalize (db.records.filterMap accept).filter (fun x => keep x.height) = kept
    by_cases empty : kept = []
    · simp [empty]
    · have full : kept.isEmpty = false := by simpa using empty
      simp only [full, Bool.false_eq_true, if_false, true_and, ne_eq, empty, not_false_eq_true]
      cases checked : verifySequential (kept.mergeSort fun a b => a.height ≤ b.height) with
      | ok u =>
        have chained := verifySequential_eq_ok.mp checked
        constructor
        · intro ok
          cases ok
          exact ⟨rfl, chained⟩
        · rintro ⟨rfl, -⟩
          rfl
      | error halt =>
        constructor
        · intro ok
          cases ok
        · rintro ⟨rfl, chained⟩
          cases checked.symm.trans (verifySequential_eq_ok.mpr chained)

/-! ## The scan of a range -/

/-- The scan of a range, over entries. -/
def fillBatch (startHeight endHeight targetCount : ℕ) : List BlockIndexEntry → Batch → Batch
  | [], batch => batch
  | entry :: entries, batch =>
    if entry.height ≥ startHeight ∧ entry.height ≤ endHeight then
      let batch := batch.insert entry.height entry
      if batch.entries.length ≥ targetCount then batch
      else fillBatch startHeight endHeight targetCount entries batch
    else fillBatch startHeight endHeight targetCount entries batch

theorem scanBatch_eq (s e t : ℕ) (records : List (List UInt8 × List UInt8)) (batch : Batch) :
    scanBatch s e t records batch = .ok (fillBatch s e t (records.filterMap accept) batch) := by
  induction records generalizing batch with
  | nil => rfl
  | cons record records ih =>
    rw [scanBatch, entryOf_eq, List.filterMap_cons]
    simp only [Except.bind, bind, ih]
    cases accept record with
    | none => rfl
    | some entry =>
      dsimp only
      rw [fillBatch]
      split
      · dsimp only
        split <;> rfl
      · rfl

/-- The different heights of a range that occur among entries. -/
def heightsSeen (s e : ℕ) (entries : List BlockIndexEntry) : Finset ℕ :=
  (entries.map (·.height)).toFinset.filter fun k => s ≤ k ∧ k ≤ e

/-- The scan of a range reads on after these entries: it has not seen as many heights of the range
as it counts in the range. -/
def ReadsOn (s e : ℕ) (entries : List BlockIndexEntry) : Prop :=
  (heightsSeen s e entries).card < max 1 (targetCount s e)

/-- The last entry at a height. -/
def lastAt (h : ℕ) (entries : List BlockIndexEntry) : Option BlockIndexEntry :=
  (entries.filter (·.height = h)).getLast?

theorem mem_heightsSeen {s e k : ℕ} {entries : List BlockIndexEntry} :
    k ∈ heightsSeen s e entries ↔ (∃ x ∈ entries, x.height = k) ∧ s ≤ k ∧ k ≤ e := by
  simp [heightsSeen]

theorem lastAt_append (h : ℕ) (a b : List BlockIndexEntry) :
    lastAt h (a ++ b) = (lastAt h b).or (lastAt h a) := by
  simp [lastAt, List.getLast?_append]

theorem lastAt_eq_none {h : ℕ} {entries : List BlockIndexEntry} :
    lastAt h entries = none ↔ ∀ x ∈ entries, x.height ≠ h := by
  simp [lastAt]

theorem of_lastAt {h : ℕ} {entries : List BlockIndexEntry} {x : BlockIndexEntry}
    (last : lastAt h entries = some x) : x ∈ entries ∧ x.height = h := by
  simpa using List.mem_of_getLast? last

theorem ReadsOn.of_prefix {s e : ℕ} {a b : List BlockIndexEntry} (reads : ReadsOn s e (a ++ b)) :
    ReadsOn s e a := by
  have fewer : heightsSeen s e a ⊆ heightsSeen s e (a ++ b) := by
    intro k mem
    obtain ⟨⟨x, inside, at'⟩, range⟩ := mem_heightsSeen.mp mem
    exact mem_heightsSeen.mpr ⟨⟨x, List.mem_append_left _ inside, at'⟩, range⟩
  exact Nat.lt_of_le_of_lt (Finset.card_le_card fewer) reads

/-- A batch holds the last of the entries read, at each height of its range. -/
def Filled (s e : ℕ) (entries : List BlockIndexEntry) (batch : Batch) : Prop :=
  ∀ k, batch.lookup k = if s ≤ k ∧ k ≤ e then lastAt k entries else none

section Filled

variable {s e : ℕ} {entries : List BlockIndexEntry} {batch : Batch} {x : BlockIndexEntry}

theorem filled_empty : Filled s e [] ∅ := by
  intro k
  simp [lastAt]

theorem Filled.length (h : Filled s e entries batch) :
    batch.entries.length = (heightsSeen s e entries).card := by
  have keys : batch.keys.toFinset = heightsSeen s e entries := by
    ext k
    rw [List.mem_toFinset, ← AList.mem_keys, ← AList.lookup_isSome, h k, mem_heightsSeen]
    split
    · rename_i range
      simp only [range, and_true, Option.isSome_iff_ne_none, ne_eq, lastAt_eq_none]
      push Not
      rfl
    · rename_i outside
      simp [outside]
  rw [← keys, List.toFinset_card_of_nodup batch.keys_nodup]
  exact (List.length_map _).symm

theorem Filled.insert (h : Filled s e entries batch) (range : s ≤ x.height ∧ x.height ≤ e) :
    Filled s e (entries ++ [x]) (batch.insert x.height x) := by
  intro k
  by_cases same : k = x.height
  · subst same
    rw [AList.lookup_insert, if_pos range, lastAt_append]
    simp [lastAt]
  · have apart : lastAt k [x] = none := lastAt_eq_none.mpr (by simpa using Ne.symm same)
    rw [AList.lookup_insert_ne same, h k, lastAt_append, apart, Option.none_or]

theorem Filled.skip (h : Filled s e entries batch) (range : ¬ (s ≤ x.height ∧ x.height ≤ e)) :
    Filled s e (entries ++ [x]) batch := by
  intro k
  by_cases inside : s ≤ k ∧ k ≤ e
  · have apart : lastAt k [x] = none := lastAt_eq_none.mpr (by
      rw [List.forall_mem_singleton]
      rintro rfl
      exact range inside)
    rw [h k, lastAt_append, apart, Option.none_or]
  · rw [h k, if_neg inside, if_neg inside]

end Filled

/-- How a scan over entries went: the entries it read, and the batch of those. -/
structure Scanned (s e : ℕ) (entries : List BlockIndexEntry) (batch : Batch)
    (read : List BlockIndexEntry) : Prop where
  starts : read <+: entries
  filled : Filled s e read batch
  /-- Every entry was read because the scan had not seen enough before it. -/
  reads : ∀ p x q, read = p ++ x :: q → ReadsOn s e p
  /-- The scan stopped at the end or when it had seen enough. -/
  stops : read = entries ∨ ¬ ReadsOn s e read

theorem scanned_fillBatch {s e : ℕ} {done : List BlockIndexEntry} (entries : List BlockIndexEntry)
    {batch : Batch}
    (filled : Filled s e done batch) (on : ReadsOn s e done)
    (reads : ∀ p x q, done = p ++ x :: q → ReadsOn s e p) :
    ∃ read, Scanned s e (done ++ entries) (fillBatch s e (targetCount s e) entries batch) read := by
  induction entries generalizing done batch with
  | nil =>
    rw [List.append_nil]
    exact ⟨done, List.prefix_refl _, filled, reads, Or.inl rfl⟩
  | cons x entries ih =>
    have reads' : ∀ p y q, done ++ [x] = p ++ y :: q → ReadsOn s e p := by
      intro p y q shape
      rcases List.eq_nil_or_concat q with rfl | ⟨q, z, rfl⟩
      · rw [List.append_inj_left' shape rfl] at on
        exact on
      · rw [List.concat_eq_append, ← List.cons_append, ← List.append_assoc] at shape
        exact reads p y q (List.append_inj_left' shape rfl)
    have whole : done ++ x :: entries = done ++ [x] ++ entries := by simp
    rw [fillBatch, whole]
    by_cases range : x.height ≥ s ∧ x.height ≤ e
    · have filled' := filled.insert range
      rw [if_pos range]
      dsimp only
      by_cases enough : (batch.insert x.height x).entries.length ≥ targetCount s e
      · rw [if_pos enough]
        refine ⟨done ++ [x], List.prefix_append _ _, filled', reads', Or.inr ?_⟩
        have some : 0 < (heightsSeen s e (done ++ [x])).card :=
          Finset.card_pos.mpr ⟨x.height, mem_heightsSeen.mpr ⟨⟨x, by simp, rfl⟩, range⟩⟩
        rw [filled'.length] at enough
        rw [ReadsOn]
        omega
      · rw [if_neg enough]
        rw [filled'.length] at enough
        exact ih filled' (by rw [ReadsOn]; omega) reads'
    · have filled' := filled.skip range
      rw [if_neg range]
      refine ih filled' ?_ reads'
      rw [ReadsOn, ← filled'.length, filled.length]
      exact on

theorem loadBatchIndex_eq {db : IndexDb} (opens : db.fault = none) (s e : ℕ) :
    ∃ batch read, loadBatchIndex db s e = .ok batch ∧ Scanned s e (accepted db) batch read := by
  have start : ReadsOn s e [] := by simp [ReadsOn, heightsSeen]
  obtain ⟨read, scanned⟩ := scanned_fillBatch (accepted db) filled_empty start
    (fun p x q none => by simp at none)
  rw [List.nil_append] at scanned
  refine ⟨_, read, ?_, scanned⟩
  rw [loadBatchIndex, newIter, opens, scanBatch_eq]
  rfl

/-- An entry is read if and only if the scan reads on after the entries before it. -/
theorem Scanned.readsOn_iff {s e : ℕ} {entries read : List BlockIndexEntry} {batch : Batch}
    (h : Scanned s e entries batch read) {p q : List BlockIndexEntry} {x : BlockIndexEntry}
    (split : entries = p ++ x :: q) : ReadsOn s e p ↔ p.length < read.length := by
  obtain ⟨rest, whole⟩ := h.starts
  constructor
  · intro on
    by_contra short
    have inside : read <+: p :=
      List.prefix_of_prefix_length_le h.starts ⟨x :: q, split.symm⟩ (Nat.le_of_not_lt short)
    obtain ⟨more, rfl⟩ := inside
    rcases h.stops with all | stopped
    · have length := congrArg List.length (all.trans split)
      simp at length
    · exact stopped on.of_prefix
  · intro longer
    have upTo : p ++ [x] <+: entries := ⟨q, by simp [split]⟩
    have inside : p ++ [x] <+: read := by
      refine List.prefix_of_prefix_length_le upTo h.starts ?_
      rw [List.length_append, List.length_singleton]
      exact longer
    obtain ⟨more, shape⟩ := inside
    exact h.reads p x more (by rw [← shape]; simp)

/-! ## Two ranges -/

/-- Every entry at a height is read for both ranges or for neither. -/
def ReadAlike (entries : List BlockIndexEntry) (h s₁ e₁ s₂ e₂ : ℕ) : Prop :=
  ∀ p x q, entries = p ++ x :: q → x.height = h → (ReadsOn s₁ e₁ p ↔ ReadsOn s₂ e₂ p)

theorem ReadAlike.symm {entries : List BlockIndexEntry} {h s₁ e₁ s₂ e₂ : ℕ}
    (alike : ReadAlike entries h s₁ e₁ s₂ e₂) : ReadAlike entries h s₂ e₂ s₁ e₁ :=
  fun p x q split here => (alike p x q split here).symm

/-- The entries read up to two places end in the same entry at a height exactly when none at that
height lies between the places. -/
theorem lastAt_eq_iff {h : ℕ} {a mid : List BlockIndexEntry} (nodup : (a ++ mid).Nodup) :
    lastAt h a = lastAt h (a ++ mid) ↔ ∀ x ∈ mid, x.height ≠ h := by
  rw [lastAt_append, ← lastAt_eq_none]
  constructor
  · intro same
    cases last : lastAt h mid with
    | none => rfl
    | some x =>
      rw [last, Option.some_or] at same
      exact absurd (of_lastAt last).1 (List.disjoint_of_nodup_append nodup (of_lastAt same).1)
  · intro none
    rw [none, Option.none_or]

theorem lastAt_read_iff {entries read₁ read₂ : List BlockIndexEntry} {b₁ b₂ : Batch}
    {h s₁ e₁ s₂ e₂ : ℕ} (nodup : entries.Nodup) (h₁ : Scanned s₁ e₁ entries b₁ read₁)
    (h₂ : Scanned s₂ e₂ entries b₂ read₂) (shorter : read₁.length ≤ read₂.length) :
    lastAt h read₁ = lastAt h read₂ ↔ ReadAlike entries h s₁ e₁ s₂ e₂ := by
  obtain ⟨mid, whole⟩ := List.prefix_of_prefix_length_le h₁.starts h₂.starts shorter
  obtain ⟨rest, shape⟩ := h₂.starts
  subst whole
  rw [lastAt_eq_iff (List.nodup_append.mp (shape ▸ nodup)).1]
  constructor
  · intro apart p x q split here
    rw [h₁.readsOn_iff split, h₂.readsOn_iff split]
    constructor
    · intro lt
      omega
    · intro lt
      by_contra le
      refine apart x ?_ here
      have place : (read₁ ++ mid)[p.length]? = some x := by
        have within : (read₁ ++ mid ++ rest)[p.length]? = (read₁ ++ mid)[p.length]? :=
          List.getElem?_append_left lt
        rw [← within, shape, split]
        simp
      rw [List.getElem?_append_right (by omega)] at place
      exact List.mem_of_getElem? place
  · intro alike x inside here
    obtain ⟨m₁, m₂, rfl⟩ := List.append_of_mem inside
    have split : entries = (read₁ ++ m₁) ++ x :: (m₂ ++ rest) := by
      rw [← shape]
      simp
    have both := alike _ x _ split here
    rw [h₁.readsOn_iff split, h₂.readsOn_iff split] at both
    simp only [List.length_append, List.length_cons] at both
    omega

/-- The entry a range has for a height. -/
def entryAt (db : IndexDb) (s e h : ℕ) : Checked IndexError (Option BlockIndexEntry) := do
  let batch ← loadBatchIndex db s e
  pure (batch.lookup h)

/-- Two ranges give the same entry for a height of both exactly when they read the same entries at
it. -/
theorem entryAt_eq_iff {db : IndexDb} {h s₁ e₁ s₂ e₂ : ℕ} (in₁ : s₁ ≤ h ∧ h ≤ e₁)
    (in₂ : s₂ ≤ h ∧ h ≤ e₂) :
    entryAt db s₁ e₁ h = entryAt db s₂ e₂ h ↔
      (db.fault = none → ReadAlike (accepted db) h s₁ e₁ s₂ e₂) := by
  cases opens : db.fault with
  | some fault =>
    simp [entryAt, loadBatchIndex, newIter, opens, bind, Except.bind]
  | none =>
    obtain ⟨b₁, read₁, load₁, h₁⟩ := loadBatchIndex_eq opens s₁ e₁
    obtain ⟨b₂, read₂, load₂, h₂⟩ := loadBatchIndex_eq opens s₂ e₂
    have answers : entryAt db s₁ e₁ h = entryAt db s₂ e₂ h ↔ lastAt h read₁ = lastAt h read₂ := by
      rw [entryAt, entryAt, load₁, load₂]
      simp only [bind, Except.bind, pure, Except.pure, Except.ok.injEq]
      rw [h₁.filled h, h₂.filled h, if_pos in₁, if_pos in₂]
    rw [answers]
    simp only [forall_const]
    by_cases shorter : read₁.length ≤ read₂.length
    · exact lastAt_read_iff (nodup_accepted db) h₁ h₂ shorter
    · rw [eq_comm, lastAt_read_iff (nodup_accepted db) h₂ h₁ (by omega)]
      exact ⟨ReadAlike.symm, ReadAlike.symm⟩

/-- A height with one entry is read for every range that has it, unless the range has all heights
and its count wraps to zero. -/
theorem readsOn_before_sole {entries p q : List BlockIndexEntry} {x : BlockIndexEntry} {s e : ℕ}
    (sole : ∀ y ∈ entries, y.height = x.height → y = x) (nodup : entries.Nodup)
    (split : entries = p ++ x :: q) (range : s ≤ x.height ∧ x.height ≤ e)
    (counts : e - s + 1 < 2 ^ 32) : ReadsOn s e p := by
  have first : x.height ∉ heightsSeen s e p := by
    intro seen
    obtain ⟨⟨y, inside, here⟩, -⟩ := mem_heightsSeen.mp seen
    have same : y = x := sole y (by rw [split]; exact List.mem_append_left _ inside) here
    rw [split] at nodup
    exact (List.disjoint_of_nodup_append nodup) (same ▸ inside) List.mem_cons_self
  have fewer : heightsSeen s e p ⊆ (Finset.Icc s e).erase x.height := by
    intro k seen
    have other : k ≠ x.height := by
      rintro rfl
      exact first seen
    exact Finset.mem_erase.mpr ⟨other, Finset.mem_Icc.mpr (mem_heightsSeen.mp seen).2⟩
  have card := Finset.card_le_card fewer
  rw [Finset.card_erase_of_mem (Finset.mem_Icc.mpr range), Nat.card_Icc] at card
  rw [ReadsOn, targetCount, asU32_of_lt counts]
  omega

theorem readAlike_of_sole {entries : List BlockIndexEntry} {h s₁ e₁ s₂ e₂ : ℕ}
    (sole : ∀ x ∈ entries, ∀ y ∈ entries, x.height = h → y.height = h → y = x)
    (nodup : entries.Nodup) (in₁ : s₁ ≤ h ∧ h ≤ e₁) (in₂ : s₂ ≤ h ∧ h ≤ e₂)
    (counts₁ : e₁ - s₁ + 1 < 2 ^ 32) (counts₂ : e₂ - s₂ + 1 < 2 ^ 32) :
    ReadAlike entries h s₁ e₁ s₂ e₂ := by
  intro p x q split here
  subst here
  have mem : x ∈ entries := by simp [split]
  have only : ∀ y ∈ entries, y.height = x.height → y = x := fun y hy same =>
    sole x mem y hy rfl same
  exact iff_of_true (readsOn_before_sole only nodup split in₁ counts₁)
    (readsOn_before_sole only nodup split in₂ counts₂)

end BlockIndex

namespace SingleBlockLoader

open Foundation BlockIndex

/-! ## Loading after a preload -/

theorem lookup_foldl_insert {β γ : Type} (f : β → γ) {entries : List (Sigma fun _ : ℕ => β)}
    (keys : entries.NodupKeys) (m : AList fun _ : ℕ => γ) (k : ℕ) :
    (entries.foldl (fun m e => m.insert e.1 (f e.2)) m).lookup k =
      ((entries.dlookup k).map f).or (m.lookup k) := by
  induction entries generalizing m with
  | nil => simp
  | cons e entries ih =>
    obtain ⟨fresh, keys⟩ := List.nodupKeys_cons.mp keys
    rw [List.foldl_cons, ih keys]
    by_cases same : k = e.1
    · subst same
      rw [List.dlookup_eq_none.mpr fresh, AList.lookup_insert, List.dlookup_cons_eq]
      rfl
    · rw [AList.lookup_insert_ne same, List.dlookup_cons_ne _ _ same]

theorem lookup_withBatch (l : SingleBlockLoader) (batch : Batch) (k : ℕ) :
    (l.withBatch batch).blockIndex.lookup k =
      ((batch.lookup k).map BlockLocation.ofEntry).or (l.blockIndex.lookup k) :=
  lookup_foldl_insert BlockLocation.ofEntry batch.nodupKeys l.blockIndex k

/-- The block that loading a height gives. -/
def blockAt (l : SingleBlockLoader) (height : ℕ) : Checked LoaderError (Option LocatedBlock) := do
  let (found, _) ← l.loadBlock height
  pure found

/-- Reading the block whose location is known, if one is. -/
def readKnown (l : SingleBlockLoader) (height : ℕ) :
    Option BlockLocation → Checked LoaderError (Option LocatedBlock)
  | none => pure none
  | some location => do
    let data ← l.readLocated height location
    pure (some data)

theorem blockAt_eq (l : SingleBlockLoader) (height : ℕ) :
    l.blockAt height = (do
      let l ← l.ensureLoaded height
      l.readKnown height (l.blockIndex.lookup height)) := by
  rw [blockAt, loadBlock]
  cases l.ensureLoaded height with
  | error halt => rfl
  | ok l' =>
    simp only [bind, Except.bind]
    cases l'.blockIndex.lookup height with
    | none => rfl
    | some location =>
      unfold readKnown
      simp only [bind, Except.bind]
      cases l'.readLocated height location <;> rfl

/-- Loading a height depends on the known locations only at that height. -/
theorem blockAt_congr (l : SingleBlockLoader) (m₁ m₂ : AList fun _ : ℕ => BlockLocation) {h : ℕ}
    (same : m₁.lookup h = m₂.lookup h) :
    ({ l with blockIndex := m₁ } : SingleBlockLoader).blockAt h =
      ({ l with blockIndex := m₂ } : SingleBlockLoader).blockAt h := by
  rw [blockAt_eq, blockAt_eq]
  unfold ensureLoaded
  dsimp only
  rw [same]
  by_cases known : (m₂.lookup h).isSome
  · rw [if_pos known, if_pos known]
    show readKnown _ h (m₁.lookup h) = readKnown _ h (m₂.lookup h)
    rw [same]
    rfl
  · rw [if_neg known, if_neg known]
    unfold preloadBatch preloadRange
    dsimp only
    cases BlockIndex.loadBatchIndex l.reader h (batchEnd h) with
    | error halt => cases halt <;> rfl
    | ok batch =>
      show readKnown _ h ((withBatch _ batch).blockIndex.lookup h) =
        readKnown _ h ((withBatch _ batch).blockIndex.lookup h)
      rw [lookup_withBatch, lookup_withBatch]
      show readKnown _ h (((batch.lookup h).map _).or (m₁.lookup h)) = _
      rw [same]
      rfl

/-- Loading a height after a range was preloaded. -/
theorem blockAt_preloadRange_congr (l : SingleBlockLoader) {h s₁ e₁ s₂ e₂ : ℕ}
    (same : entryAt l.reader s₁ e₁ h = entryAt l.reader s₂ e₂ h) :
    (l.preloadRange s₁ e₁ >>= fun l => l.blockAt h) =
      (l.preloadRange s₂ e₂ >>= fun l => l.blockAt h) := by
  unfold entryAt at same
  unfold preloadRange
  cases opens : l.reader.fault with
  | some fault =>
    simp [loadBatchIndex, newIter, opens, bind, Except.bind, Checked.mapErr]
  | none =>
    obtain ⟨b₁, _, load₁, -⟩ := loadBatchIndex_eq opens s₁ e₁
    obtain ⟨b₂, _, load₂, -⟩ := loadBatchIndex_eq opens s₂ e₂
    rw [load₁, load₂] at same
    simp only [bind, Except.bind, pure, Except.pure, Except.ok.injEq] at same
    rw [load₁, load₂]
    refine blockAt_congr l (l.withBatch b₁).blockIndex (l.withBatch b₂).blockIndex ?_
    rw [lookup_withBatch, lookup_withBatch, same]

end SingleBlockLoader

namespace BlockIndex

open Foundation

/-- **Range independence.** Two ranges that contain a height give the same entry for it exactly
when every entry at that height is read for both ranges or for neither; a block is then loaded alike
whether its batch or a full range was preloaded. -/
theorem index_lookup_agrees_iff (db : IndexDb) {h s₁ e₁ s₂ e₂ : ℕ} (in₁ : s₁ ≤ h ∧ h ≤ e₁)
    (in₂ : s₂ ≤ h ∧ h ≤ e₂) :
    (entryAt db s₁ e₁ h = entryAt db s₂ e₂ h ↔
      (db.fault = none → ReadAlike (accepted db) h s₁ e₁ s₂ e₂)) ∧
    ∀ (l : SingleBlockLoader), l.reader = db → e₁ = SingleBlockLoader.batchEnd s₁ →
      (db.fault = none → ReadAlike (accepted db) h s₁ e₁ s₂ e₂) →
      (l.preloadBatch s₁ >>= fun l => l.blockAt h) =
        (l.preloadFullRange s₂ e₂ >>= fun l => l.blockAt h) := by
  refine ⟨entryAt_eq_iff in₁ in₂, fun l reader batch alike => ?_⟩
  have same := (entryAt_eq_iff in₁ in₂).mpr alike
  rw [← reader] at same
  have loaded := l.blockAt_preloadRange_congr same
  rw [batch] at loaded
  exact loaded

/-- A record: a block whose hash ends in a byte, at a height, fully valid and with its data. -/
def Sample.record (tag height : UInt8) : List UInt8 × List UInt8 :=
  (0x62 :: (List.replicate 31 0 ++ [tag]), [1, height, 0x1d, 1, 0, 8])

/-- The entry of such a record. -/
def Sample.entry (tag : UInt8) (height : ℕ) : BlockIndexEntry :=
  ⟨height, hexEncode (List.replicate 31 0 ++ [tag]), "", 0, 8, 0, 1, 0x1d⟩

/-- A chain of three blocks. -/
def Sample.cleanIndex : IndexDb where
  records := [Sample.record 10 0, Sample.record 11 1, Sample.record 13 2]
  distinct := by decide

/-- The same chain and a stale block beside its second one. -/
def Sample.staleIndex : IndexDb where
  records := [Sample.record 10 0, Sample.record 11 1, Sample.record 12 1, Sample.record 13 2]
  distinct := by decide

/-- Height 1 is the first of its two entries in one range and the second in another. -/
theorem index_lookup_differs :
    entryAt Sample.staleIndex 1 1 1 = .ok (some (Sample.entry 11 1)) ∧
      entryAt Sample.staleIndex 0 2 1 = .ok (some (Sample.entry 12 1)) ∧
      entryAt Sample.staleIndex 1 1 1 ≠ entryAt Sample.staleIndex 0 2 1 := by
  decide +kernel

theorem accepted_cleanIndex : accepted Sample.cleanIndex =
    [Sample.entry 10 0, Sample.entry 11 1, Sample.entry 13 2] := by
  decide +kernel

theorem accepted_staleIndex : accepted Sample.staleIndex =
    [Sample.entry 10 0, Sample.entry 11 1, Sample.entry 12 1, Sample.entry 13 2] := by
  decide +kernel

/-- Without the stale block both ranges have the same entry. -/
theorem index_lookup_agrees_sample :
    entryAt Sample.cleanIndex 1 1 1 = entryAt Sample.cleanIndex 0 2 1 := by
  refine (index_lookup_agrees_iff Sample.cleanIndex (by decide) (by decide)).1.mpr fun _ => ?_
  refine readAlike_of_sole ?_ (nodup_accepted _) (by decide) (by decide) (by decide) (by decide)
  rw [accepted_cleanIndex]
  decide +kernel

/-! ## Stale branches -/

/-- An index with a chain from height zero, whose headers name their predecessors, and stale
entries below its last height whose parents are indexed too. `prev` is the hash that the header of
a block names. -/
structure Holds (prev : String → String) (db : IndexDb) (main stale : List BlockIndexEntry) :
    Prop where
  opens : db.fault = none
  entries : (accepted db).Perm (main ++ stale)
  nonempty : main ≠ []
  heights : main.map (·.height) = List.range main.length
  linked : main.IsChain fun a b => prev b.hash = a.hash
  below : ∀ x ∈ stale, x.height + 1 < main.length
  branches : ∀ x ∈ stale, ∃ p ∈ main ++ stale, p.height + 1 = x.height ∧ prev x.hash = p.hash

/-- The chain is returned, and every range of its heights has only its blocks. -/
def ReturnsMain (db : IndexDb) (main : List BlockIndexEntry) : Prop :=
  getMainChain db = .ok main ∧
    ∀ s e, s ≤ e → e < main.length → ∃ batch, loadBatchIndex db s e = .ok batch ∧
      ∀ h x, batch.lookup h = some x → x ∈ main

theorem getMainChain_eq_ok {db : IndexDb} {chain : List BlockIndexEntry} :
    getMainChain db = .ok chain ↔
      db.fault = none ∧ accepted db ≠ [] ∧
        chain = (accepted db).mergeSort (fun a b => a.height ≤ b.height) ∧
        chain.IsChain Follows := by
  rw [getMainChain, chainWith_eq_ok]
  simp

theorem ordered_of_heights {main : List BlockIndexEntry}
    (heights : main.map (·.height) = List.range main.length) :
    main.Pairwise fun a b => a.height < b.height := by
  have sorted : (main.map (·.height)).Pairwise (· < ·) := heights ▸ List.pairwise_lt_range
  exact List.pairwise_map.mp sorted

/-- Sorting the entries of a chain puts them in the order of the chain. -/
theorem mergeSort_of_perm {entries main : List BlockIndexEntry} (perm : entries.Perm main)
    (heights : main.map (·.height) = List.range main.length) :
    entries.mergeSort (fun a b => a.height ≤ b.height) = main := by
  have ordered := ordered_of_heights heights
  have sorted : (entries.mergeSort fun a b => a.height ≤ b.height).Pairwise
      fun a b => a.height ≤ b.height := by
    let le : BlockIndexEntry → BlockIndexEntry → Bool := fun a b => a.height ≤ b.height
    have trans : ∀ a b c, le a b = true → le b c = true → le a c = true := by
      intro a b c ab bc
      simp only [le, decide_eq_true_eq] at ab bc ⊢
      omega
    have total : ∀ a b, (le a b || le b a) = true := by
      intro a b
      simp only [le, Bool.or_eq_true, decide_eq_true_eq]
      omega
    simpa [le] using List.pairwise_mergeSort trans total entries
  refine List.Perm.eq_of_pairwise (fun a b ha hb ab ba => ?_) sorted
    (ordered.imp fun lt => Nat.le_of_lt lt) ((List.mergeSort_perm _ _).trans perm)
  have hb' : b ∈ main := hb
  have ha' : a ∈ main := perm.mem_iff.mp ((List.mergeSort_perm _ _).mem_iff.mp ha)
  have nodup : (main.map (·.height)).Nodup := heights ▸ List.nodup_range
  exact List.inj_on_of_nodup_map nodup ha' hb' (Nat.le_antisymm ab ba)

theorem isChain_follows {main : List BlockIndexEntry}
    (heights : main.map (·.height) = List.range main.length)
    (small : ∀ x ∈ main, x.height < 2 ^ 32) : main.IsChain Follows := by
  refine List.isChain_iff_getElem.mpr fun i inside => ?_
  have at' : ∀ j, (h : j < main.length) → main[j].height = j := fun j h => by
    have place := congrArg (·[j]?) heights
    simpa [h] using place
  have next := small main[i + 1] (List.getElem_mem _)
  rw [at'] at next
  rw [Follows, at', at', asU32_of_lt next]

/-- The answers of the index when no stale entry is indexed, and only then. -/
theorem returnsMain_iff {prev : String → String} {db : IndexDb} {main stale : List BlockIndexEntry}
    (h : Holds prev db main stale) : ReturnsMain db main ↔ stale = [] := by
  constructor
  · rintro ⟨returned, -⟩
    obtain ⟨-, -, sorted, -⟩ := getMainChain_eq_ok.mp returned
    have perm : main.Perm (main ++ stale) := by
      rw [sorted]
      exact (List.mergeSort_perm _ _).trans (sorted ▸ h.entries)
    have length := perm.length_eq
    rw [List.length_append] at length
    exact List.length_eq_zero_iff.mp (by omega)
  · rintro rfl
    have perm : (accepted db).Perm main := by simpa using h.entries
    have small : ∀ x ∈ main, x.height < 2 ^ 32 := fun x mem =>
      height_lt_of_accepted (perm.mem_iff.mpr mem)
    refine ⟨getMainChain_eq_ok.mpr ⟨h.opens, ?_, (mergeSort_of_perm perm h.heights).symm,
      isChain_follows h.heights small⟩, fun s e _ _ => ?_⟩
    · intro none
      rw [none] at perm
      exact h.nonempty perm.nil_eq.symm
    · obtain ⟨batch, read, load, scanned⟩ := loadBatchIndex_eq h.opens s e
      refine ⟨batch, load, fun k x found => ?_⟩
      rw [scanned.filled k] at found
      split at found
      · exact perm.mem_iff.mp (scanned.starts.subset (of_lastAt found).1)
      · cases found

/-- The hash that the header of a sample block names. -/
def Sample.prev (hash : String) : String :=
  if hash = (Sample.entry 13 2).hash then (Sample.entry 11 1).hash else (Sample.entry 10 0).hash

/-- The stale block is returned in place of the block of the chain, and the chain is not. -/
theorem stale_returned :
    Holds Sample.prev Sample.staleIndex
        [Sample.entry 10 0, Sample.entry 11 1, Sample.entry 13 2] [Sample.entry 12 1] ∧
      entryAt Sample.staleIndex 0 2 1 = .ok (some (Sample.entry 12 1)) ∧
      ¬ ReturnsMain Sample.staleIndex
        [Sample.entry 10 0, Sample.entry 11 1, Sample.entry 13 2] := by
  refine ⟨⟨rfl, ?_, by decide, by decide, ?_, ?_, ?_⟩, by decide +kernel, fun returned => ?_⟩
  · rw [accepted_staleIndex]
    decide +kernel
  · decide +kernel
  · decide
  · decide +kernel
  · obtain ⟨-, -, sorted, -⟩ := getMainChain_eq_ok.mp returned.1
    have length := (List.mergeSort_perm (accepted Sample.staleIndex)
      fun a b => a.height ≤ b.height).length_eq
    rw [← sorted, accepted_staleIndex] at length
    exact absurd length (by decide)

theorem returnsMain_sample : ReturnsMain Sample.cleanIndex
    [Sample.entry 10 0, Sample.entry 11 1, Sample.entry 13 2] := by
  have holds : Holds Sample.prev Sample.cleanIndex
      [Sample.entry 10 0, Sample.entry 11 1, Sample.entry 13 2] [] := by
    refine ⟨rfl, ?_, by decide, by decide, by decide +kernel, by decide, by decide⟩
    rw [accepted_cleanIndex]
    decide +kernel
  exact (returnsMain_iff holds).mpr rfl

end BlockIndex

end ChainGraph
