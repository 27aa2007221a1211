import ChainGraph.Laws.Address
import ChainGraph.Laws.Shards
import ChainGraph.Parser.Prewarm

/-!
# Pre-warmed entries

The entry a walk makes of an output against the one ingestion makes of it. The walks' classifier
knows neither Taproot nor public keys, and takes the crate's address whatever the type, so the two
part on witness programs of version 1 and later and on public keys, and nowhere else.

What the walks put into the cache are such entries.
-/

namespace ChainGraph

open Foundation

variable {crate : AddressCrate} {network : Network} {s : Script}

/-! ## The two classifiers -/

/-- The scripts the walks' classifier does not know. -/
def Overlooked (crate : AddressCrate) (s : Script) : Prop :=
  (Script.isWitnessProgram s ∧ ∃ v, Script.witnessVersion s = some (v + 1)) ∨ Pattern crate .P2PK s

/-- The classifiers give the script the same type and the same address. -/
def Agree (crate : AddressCrate) (network : Network) (s : Script) : Prop :=
  prewarmScriptType s = (extractAddress crate s network).scriptType ∧
    crate.fromScript s network = (extractAddress crate s network).address

section V0

variable {length : ℕ} {push : UInt8}

/-- What the walks' tests take for a program of version 0 is one. -/
theorem isWitnessProgram_of_v0 (h : Script.isV0Of length push s) (size : length = push.toNat + 2)
    (low : 2 ≤ push.toNat) (high : push.toNat ≤ 40) : Script.isWitnessProgram s := by
  unfold Script.isV0Of at h
  rw [decide_eq_true_eq] at h
  obtain ⟨long, version, second⟩ := h
  cases s with
  | nil => cases version
  | cons ver tail =>
    cases tail with
    | nil => cases second
    | cons b program =>
      cases second
      have width : program.length = push.toNat := by
        rw [List.length_cons, List.length_cons] at long
        omega
      refine isWitnessProgram_iff.mpr ⟨ver, push, program, rfl, ?_, by omega, by omega, ?_⟩
      · change Script.witnessVersionOf ver = some 0 at version
        rw [version]
        rfl
      · rw [width, UInt8.ofNat_toNat]

/-- Of a witness program the tests ask the version and the length. -/
theorem isV0Of_program (program : Script.isWitnessProgram s) (size : length = push.toNat + 2) :
    Script.isV0Of length push s ↔ Script.witnessVersion s = some 0 ∧ s.length = length := by
  obtain ⟨ver, second, rest, rfl, _, _, _, second_eq⟩ := isWitnessProgram_iff.mp program
  unfold Script.isV0Of
  rw [decide_eq_true_eq]
  constructor
  · rintro ⟨long, version, _⟩
    exact ⟨version, long⟩
  · rintro ⟨version, long⟩
    have width : rest.length = push.toNat := by
      rw [List.length_cons, List.length_cons] at long
      omega
    refine ⟨long, version, ?_⟩
    rw [second_eq, width, UInt8.ofNat_toNat]
    rfl

end V0

/-- The type the walks store for a script that is no hash pattern and no witness program. -/
theorem prewarmScriptType_rest (pkh : ¬ Script.isP2pkh s) (sh : ¬ Script.isP2sh s)
    (program : ¬ Script.isWitnessProgram s) :
    prewarmScriptType s = if Script.isOpReturn s then .NullData else .Unknown := by
  have wpkh : ¬ Script.isP2wpkh s := fun h =>
    program (isWitnessProgram_of_v0 h (by decide) (by decide) (by decide))
  have wsh : ¬ Script.isP2wsh s := fun h =>
    program (isWitnessProgram_of_v0 h (by decide) (by decide) (by decide))
  simp only [prewarmScriptType, pkh, sh, wpkh, wsh, if_false, Bool.false_eq_true]

/-- The type the walks store for a witness program. -/
theorem prewarmScriptType_program (program : Script.isWitnessProgram s) :
    prewarmScriptType s =
      if Script.witnessVersion s = some 0 ∧ s.length = 22 then .P2WPKH
      else if Script.witnessVersion s = some 0 ∧ s.length = 34 then .P2WSH
      else .Unknown := by
  obtain ⟨op, pkh, sh⟩ := witness_first program
  have wpkh : Script.isV0Of 22 0x14 s ↔ _ := isV0Of_program program (by decide)
  have wsh : Script.isV0Of 34 0x20 s ↔ _ := isV0Of_program program (by decide)
  simp only [prewarmScriptType, Script.isP2wpkh, Script.isP2wsh, op, pkh, sh, wpkh, wsh, if_false,
    Bool.false_eq_true]

/-- The crate has no address for a script of no hash pattern and no witness program. -/
theorem fromScript_rest (standard : crate.Standard) (pkh : ¬ Script.isP2pkh s)
    (sh : ¬ Script.isP2sh s) (program : ¬ Script.isWitnessProgram s) :
    crate.fromScript s network = none := by
  apply Option.not_isSome_iff_eq_none.mp
  intro some
  rcases (standard.fromScript s network).mp some with same | same | ⟨same, _⟩
  · exact pkh same
  · exact sh same
  · exact program same

/-! ## Where they agree -/

theorem agree_opReturn (standard : crate.Standard) (op : Script.isOpReturn s) :
    Agree crate network s := by
  have pattern : Pattern crate .NullData s := isOpReturn_iff.mp op
  obtain ⟨data, rfl⟩ := pattern
  have pkh : ¬ Script.isP2pkh (0x6a :: data) := by simp [Script.isP2pkh]
  have sh : ¬ Script.isP2sh (0x6a :: data) := by simp [Script.isP2sh]
  have program : ¬ Script.isWitnessProgram (0x6a :: data) := by
    intro program
    obtain ⟨_, _, _, same, known, _⟩ := isWitnessProgram_iff.mp program
    cases same
    cases known
  unfold Agree
  rw [prewarmScriptType_rest pkh sh program, fromScript_rest standard pkh sh program,
    extractAddress_opReturn crate network op, if_pos op]
  exact ⟨rfl, rfl⟩

/-- A hash pattern: both have its type and the crate's address. -/
theorem agree_hash {t : ScriptType} (found : (crate.fromScript s network).isSome)
    (reported : extractAddress crate s network = addressAs crate s network t)
    (stored : prewarmScriptType s = t) : Agree crate network s := by
  obtain ⟨address, is, same⟩ := addressAs_some (t := t) found
  unfold Agree
  rw [reported, is, stored, same]
  exact ⟨rfl, rfl⟩

theorem agree_v0 (standard : crate.Standard) (program : Script.isWitnessProgram s)
    (version : Script.witnessVersion s = some 0) : Agree crate network s := by
  have stored := prewarmScriptType_program program
  simp only [version, true_and] at stored
  cases address : crate.fromScript s network with
  | some text =>
    exact agree_hash (by rw [address]; rfl) (extractAddress_v0 crate network program version) stored
  | none =>
    have found := (standard.fromScript s network).mpr
    rw [address] at found
    have odd : ¬ (s.length = 22 ∨ s.length = 34) := fun allowed =>
      Bool.false_ne_true (found (Or.inr (Or.inr ⟨program, fun _ => allowed⟩)))
    rw [not_or] at odd
    unfold Agree
    rw [extractAddress_v0 crate network program version, addressAs_none address, stored,
      if_neg odd.1, if_neg odd.2]
    exact ⟨rfl, address⟩

/-! ## Where they part -/

theorem not_agree_program (standard : crate.Standard) (program : Script.isWitnessProgram s) {v : ℕ}
    (version : Script.witnessVersion s = some (v + 1)) : ¬ Agree crate network s := by
  rintro ⟨type, text⟩
  have later : Script.witnessVersion s ≠ some 0 := by
    rw [version]
    exact fun same => by cases same
  have found : (crate.fromScript s network).isSome :=
    (standard.fromScript s network).mpr (Or.inr (Or.inr ⟨program, fun zero => absurd zero later⟩))
  cases v with
  | zero =>
    obtain ⟨address, is, _⟩ := addressAs_some (t := .P2TR) found
    rw [prewarmScriptType_program program, if_neg (fun both => later both.1),
      if_neg (fun both => later both.1),
      extractAddress_v1 crate network program version, is] at type
    cases type
  | succ v =>
    rw [text, extractAddress_later crate network program version] at found
    cases found

theorem not_agree_p2pk (standard : crate.Standard) (pattern : Pattern crate .P2PK s) :
    ¬ Agree crate network s := by
  rintro ⟨type, _⟩
  have other {t : ScriptType} (differ : .P2PK ≠ t) : ¬ Pattern crate t s := fun h =>
    differ (pattern.unique standard h)
  have op : ¬ Script.isOpReturn s := fun h => other (by decide) (isOpReturn_iff.mp h)
  have pkh : ¬ Script.isP2pkh s := fun h => other (by decide) (isP2pkh_iff.mp h)
  have sh : ¬ Script.isP2sh s := fun h => other (by decide) (isP2sh_iff.mp h)
  have program : ¬ Script.isWitnessProgram s := by
    intro program
    obtain ⟨first, tail, rfl, low, high⟩ := pattern.marked standard
    obtain ⟨ver, _, _, same, known, _⟩ := isWitnessProgram_iff.mp program
    cases same
    obtain ⟨v, version⟩ := Option.isSome_iff_exists.mp known
    rcases witnessVersionOf_cases version with ⟨rfl, _⟩ | ⟨least, _, _⟩
    · exact absurd low (by decide)
    · rw [UInt8.le_iff_toNat_le] at least
      simp only [UInt8.reduceToNat] at least
      omega
  have some : (extractP2pkAddress crate s network).isSome := extractP2pkAddress_isSome.mpr pattern
  obtain ⟨address, key⟩ := Option.isSome_iff_exists.mp some
  rw [prewarmScriptType_rest pkh sh program, if_neg op,
    extractAddress_p2pk op pkh sh program key] at type
  cases type

theorem agree_iff (standard : crate.Standard) :
    Agree crate network s ↔ ¬ Overlooked crate s := by
  constructor
  · rintro agree (⟨program, v, version⟩ | pattern)
    · exact not_agree_program standard program version agree
    · exact not_agree_p2pk standard pattern agree
  · intro usual
    have found := standard.fromScript s network
    by_cases op : Script.isOpReturn s
    · exact agree_opReturn standard op
    by_cases pkh : Script.isP2pkh s
    · apply agree_hash (found.mpr (Or.inl pkh)) (extractAddress_p2pkh crate network op pkh)
      simp only [prewarmScriptType, pkh, if_true]
    by_cases sh : Script.isP2sh s
    · apply agree_hash (found.mpr (Or.inr (Or.inl sh)))
        (extractAddress_p2sh crate network op pkh sh)
      simp only [prewarmScriptType, pkh, sh, if_true, if_false, Bool.false_eq_true]
    by_cases program : Script.isWitnessProgram s
    · obtain ⟨ver, push, rest, rfl, known, _⟩ := isWitnessProgram_iff.mp program
      obtain ⟨v, version⟩ := Option.isSome_iff_exists.mp known
      cases v with
      | zero => exact agree_v0 standard program version
      | succ v => exact absurd (Or.inl ⟨program, v, version⟩) usual
    · have key : extractP2pkAddress crate s network = none := by
        apply Option.not_isSome_iff_eq_none.mp
        intro some
        exact usual (Or.inr (extractP2pkAddress_isSome.mp some))
      unfold Agree
      rw [prewarmScriptType_rest pkh sh program, if_neg op,
        extractAddress_unknown op pkh sh program key, fromScript_rest standard pkh sh program]
      exact ⟨rfl, rfl⟩

/-- **Pre-warming agrees with ingestion** on an output iff its script is neither a witness program
of version 1 or later nor a public key's. -/
theorem prewarmOutput_eq_iff (crate : AddressCrate) (standard : crate.Standard)
    (network : Network) (output : TxOut) (txid : Txid) (vout : ℕ) :
    prewarmOutput crate network vout output =
        .ofOutput (.fromOutput crate output txid vout network) ↔
      ¬ Overlooked crate output.scriptPubkey := by
  have agree : Agree crate network output.scriptPubkey ↔ _ := agree_iff standard
  rw [← agree]
  unfold prewarmOutput CachedOutput.ofOutput OutputData.fromOutput Agree
  simp only [CachedOutput.mk.injEq, true_and]

namespace Sample

/-- An ordinary Taproot output. -/
def taproot : Script :=
  [0x51, 0x20, 0xa6, 0x08, 0x69, 0xf0, 0xdb, 0xcf, 0x1d, 0xc6, 0x59, 0xc9, 0xce, 0xcb, 0xaf, 0x80,
    0x50, 0x13, 0x5e, 0xa9, 0xe8, 0xcd, 0xc4, 0x87, 0x05, 0x3f, 0x1d, 0xc6, 0x88, 0x09, 0x49, 0xdc,
    0x68, 0x4c]

/-- The crate as far as this output goes. -/
def taprootCrate : AddressCrate :=
  textCrate "bc1p5cyxnuxmeuwuvkwfem96lqzszd02n6xdcjrs20cac6yqjjwudpxqkedrcr"

end Sample

/-- An ordinary Taproot output is pre-warmed as of unknown type. -/
theorem taproot_prewarmed :
    (prewarmOutput Sample.taprootCrate .Bitcoin 0 ⟨1000, Sample.taproot⟩).scriptType = .Unknown ∧
      prewarmOutput Sample.taprootCrate .Bitcoin 0 ⟨1000, Sample.taproot⟩ ≠
        .ofOutput (.fromOutput Sample.taprootCrate ⟨1000, Sample.taproot⟩ 0 0 .Bitcoin) :=
  ⟨by decide, by decide⟩

/-- Of an output that is locked to the hash of a key, and of a lone `OP_RETURN`, both make the
same. -/
theorem prewarmOutput_eq_iff_sample : Sample.keyHashCrate.Standard ∧
    prewarmOutput Sample.keyHashCrate .Bitcoin 1 ⟨1000, Sample.keyHash⟩ =
      .ofOutput (.fromOutput Sample.keyHashCrate ⟨1000, Sample.keyHash⟩ 7 1 .Bitcoin) ∧
    prewarmOutput Sample.keyHashCrate .Bitcoin 0 ⟨0, [0x6a]⟩ =
      .ofOutput (.fromOutput Sample.keyHashCrate ⟨0, [0x6a]⟩ 7 0 .Bitcoin) := by
  have standard : Sample.keyHashCrate.Standard := Sample.standard_textCrate _
  refine ⟨standard,
    (prewarmOutput_eq_iff _ standard .Bitcoin ⟨1000, Sample.keyHash⟩ 7 1).mpr ?_,
    (prewarmOutput_eq_iff _ standard .Bitcoin ⟨0, [0x6a]⟩ 7 0).mpr ?_⟩
  · rintro (⟨_, v, version⟩ | pattern)
    · cases version
    · have hash : Pattern Sample.keyHashCrate .P2WPKH Sample.keyHash := ⟨_, rfl, rfl⟩
      cases pattern.unique standard hash
  · rintro (⟨program, _⟩ | pattern)
    · cases program
    · have null : Pattern Sample.keyHashCrate .NullData [0x6a] := ⟨[], rfl⟩
      cases pattern.unique standard null

/-! ## What the walks insert -/

namespace SingleBlockLoader

open UtxoCache

variable {l l' : SingleBlockLoader} {cache cache' : UtxoCache}

/-- An entry a walk makes of an output of a transaction. -/
def Prewarmed (crate : AddressCrate) (network : Network) (e : UtxoCache.Entry) : Prop :=
  ∃ (tx : Transaction) (i : ℕ) (output : TxOut), tx.output[i]? = some output ∧
    e = (⟨tx.txid, asU32 i⟩, prewarmOutput crate network (asU32 i) output)

theorem prewarmed_entries {block : Block} {e : UtxoCache.Entry}
    (mem : e ∈ prewarmEntries crate network block) : Prewarmed crate network e := by
  obtain ⟨tx, _, inTx⟩ := List.mem_flatMap.mp mem
  obtain ⟨⟨output, i⟩, at_i, rfl⟩ := List.mem_map.mp inTx
  exact ⟨tx, i, output, List.mem_zipIdx_iff_getElem?.mp at_i, rfl⟩

theorem stems_prewarmInsert {P : UtxoCache.Entry → Prop} {entries : List UtxoCache.Entry}
    (new : ∀ e ∈ entries, P e)
    (cache : UtxoCache) : Stems P cache (prewarmInsert entries cache).2 := by
  induction entries generalizing cache with
  | nil => exact Stems.refl P cache
  | cons e rest ih =>
    have first : Stems P cache (cache.insertPrewarm e.1 e.2).2 :=
      stems_insertPrewarm cache (new e List.mem_cons_self)
    unfold prewarmInsert
    split
    · rename_i taken
      rw [taken] at first
      exact first.trans (ih (fun e mem => new e (List.mem_cons_of_mem _ mem)) _)
    · rename_i refused
      rw [refused] at first
      exact first

theorem stems_prewarmNeeded {P : UtxoCache.Entry → Prop} {entries : List UtxoCache.Entry}
    (new : ∀ e ∈ entries, P e)
    (needed : Finset UtxoKey) (found : ℕ) (cache : UtxoCache) :
    Stems P cache (prewarmNeeded entries needed found cache).2.2 := by
  induction entries generalizing needed found cache with
  | nil => exact Stems.refl P cache
  | cons e rest ih =>
    have others : ∀ e ∈ rest, P e := fun e mem => new e (List.mem_cons_of_mem _ mem)
    unfold prewarmNeeded
    rw [List.foldl_cons]
    dsimp only
    by_cases wanted : e.1 ∈ needed
    · rw [if_pos wanted]
      have first : Stems P cache (cache.insertPrewarm e.1 e.2).2 :=
        stems_insertPrewarm cache (new e List.mem_cons_self)
      exact first.trans (ih others ..)
    · rw [if_neg wanted]
      exact ih others ..

/-- A block that is loaded leaves the walk at its entries. -/
theorem stems_prewarmBack {remaining loaded height n : ℕ}
    (done : prewarmBack crate network remaining loaded height l cache = .ok (n, l', cache')) :
    Stems (Prewarmed crate network) cache cache' := by
  induction remaining generalizing loaded height l cache with
  | zero =>
    cases done
    exact Stems.refl ..
  | succ remaining ih =>
    unfold prewarmBack at done
    split at done
    · cases done
      exact Stems.refl ..
    split at done
    · cases done
      exact Stems.refl ..
    · obtain ⟨⟨data, l₁⟩, _, rest⟩ := Checked.bind_eq_ok.mp done
      cases data with
      | none =>
        cases rest
        exact Stems.refl ..
      | some located =>
        have inserted : Stems (Prewarmed crate network) cache
            (prewarmInsert (prewarmEntries crate network located.block) cache).2 :=
          stems_prewarmInsert (fun e mem => prewarmed_entries mem) cache
        dsimp only at rest
        split at rest
        · rename_i refused
          rw [refused] at inserted
          cases rest
          exact inserted
        · rename_i taken
          rw [taken] at inserted
          exact inserted.trans (ih rest)

/-- Pre-warming adds entries made of outputs, each in its shard. -/
theorem stems_prewarmCache {startHeight maxBlocks n : ℕ}
    (done : prewarmCache crate network l cache startHeight maxBlocks = .ok (n, l', cache')) :
    Stems (Prewarmed crate network) cache cache' := by
  unfold prewarmCache at done
  split at done
  · cases done
    exact Stems.refl ..
  · obtain ⟨_, _, walked⟩ := Checked.bind_eq_ok.mp done
    exact stems_prewarmBack walked

theorem stems_prewarmBackTargeted {remaining loaded found height n m : ℕ}
    {needed : Finset UtxoKey}
    (done : prewarmBackTargeted crate network remaining loaded found height needed l cache =
      .ok (n, m, l', cache')) : Stems (Prewarmed crate network) cache cache' := by
  induction remaining generalizing loaded found height needed l cache with
  | zero =>
    cases done
    exact Stems.refl ..
  | succ remaining ih =>
    unfold prewarmBackTargeted at done
    split at done
    · cases done
      exact Stems.refl ..
    split at done
    · cases done
      exact Stems.refl ..
    · obtain ⟨⟨data, l₁⟩, _, rest⟩ := Checked.bind_eq_ok.mp done
      cases data with
      | none =>
        cases rest
        exact Stems.refl ..
      | some located =>
        have inserted : Stems (Prewarmed crate network) cache
            (prewarmNeeded (prewarmEntries crate network located.block) needed found cache).2.2 :=
          stems_prewarmNeeded (fun e mem => prewarmed_entries mem)
            needed found cache
        exact inserted.trans (ih rest)

/-- Targeted pre-warming adds such entries too. -/
theorem stems_prewarmCacheTargeted {startHeight scanAhead maxBackward endHeight : ℕ}
    {counts : ℕ × ℕ × ℕ} (done : prewarmCacheTargeted crate network l cache startHeight scanAhead
      maxBackward endHeight = .ok (counts, l', cache')) :
    Stems (Prewarmed crate network) cache cache' := by
  unfold prewarmCacheTargeted at done
  split at done
  · cases done
    exact Stems.refl ..
  · obtain ⟨_, _, scan⟩ := Checked.bind_eq_ok.mp done
    obtain ⟨⟨needed, scanned, l₁⟩, _, walk⟩ := Checked.bind_eq_ok.mp scan
    dsimp only at walk
    split at walk
    · cases walk
      exact Stems.refl ..
    · obtain ⟨_, _, back⟩ := Checked.bind_eq_ok.mp walk
      obtain ⟨⟨loaded, found, l₂, cache₂⟩, walked, counted⟩ := Checked.bind_eq_ok.mp back
      cases counted
      exact stems_prewarmBackTargeted walked

end SingleBlockLoader

end ChainGraph
