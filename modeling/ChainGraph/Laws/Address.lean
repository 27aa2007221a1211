import ChainGraph.Foundation.Bytes
import ChainGraph.Parser.Address

/-!
# The script types of the documentation

The patterns `ADDRESS_DERIVATION.md` lists, stated by the bytes of a script, and what the cascade
of predicates in `extract_address` reports against them. The two agree on every script but the
witness programs of version 1 that are not 32 bytes long: each is reported as Taproot, where the
programs of version 0 are told apart by their length.

What is asked of the `bitcoin` crate is gathered in `Documented`.
-/

namespace ChainGraph

open Foundation

/-! ## Pushes -/

/-- The ways to push a string of bytes: after its length as the opcode, up to 75, or after one of
three opcodes and the length in one, two or four bytes. -/
inductive PushOf (bytes : List UInt8) : Script → Prop where
  | direct : bytes.length ≤ 75 → PushOf bytes (.ofNat bytes.length :: bytes)
  | data {code : UInt8} {width : ℕ} : (code, width) ∈ [(76, 1), (77, 2), (78, 4)] →
      bytes.length < 256 ^ width →
      PushOf bytes (code :: (leBytes width bytes.length ++ bytes))

theorem PushOf.ne_nil {bytes : List UInt8} {enc : Script} (push : PushOf bytes enc) : enc ≠ [] := by
  cases push <;> exact List.cons_ne_nil _ _

section Instructions

variable {bytes rest after : List UInt8} {code c : UInt8}

theorem takePush_eq {n : ℕ} :
    takePush n rest = (.pushBytes bytes, after) ↔ rest = bytes ++ after ∧ bytes.length = n := by
  unfold takePush
  constructor
  · intro taken
    split at taken
    · rename_i enough
      cases taken
      exact ⟨(List.take_append_drop n rest).symm, List.length_take_of_le enough⟩
    · cases taken
  · rintro ⟨rfl, rfl⟩
    rw [if_pos (by rw [List.length_append]; exact Nat.le_add_right ..), List.take_left,
      List.drop_left]

theorem takePushData_eq {width : ℕ} :
    takePushData width rest = (.pushBytes bytes, after) ↔
      rest = leBytes width bytes.length ++ bytes ++ after ∧ bytes.length < 256 ^ width := by
  unfold takePushData
  constructor
  · intro taken
    split at taken
    · rename_i enough
      obtain ⟨split, size⟩ := takePush_eq.mp taken
      change bytes.length = ofLe (rest.take width) at size
      have width_eq : (rest.take width).length = width := List.length_take_of_le enough
      have word := leBytes_ofLe (rest.take width)
      rw [width_eq, ← size] at word
      have bound := ofLe_lt (rest.take width)
      rw [width_eq, ← size] at bound
      refine ⟨?_, bound⟩
      rw [word, List.append_assoc, ← split, List.take_append_drop]
    · cases taken
  · rintro ⟨rfl, bound⟩
    rw [List.append_assoc, if_pos (by rw [List.length_append, length_leBytes]; omega)]
    have front : (leBytes width bytes.length ++ (bytes ++ after)).take width =
        leBytes width bytes.length := List.take_left' (length_leBytes ..)
    have back : (leBytes width bytes.length ++ (bytes ++ after)).drop width = bytes ++ after :=
      List.drop_left' (length_leBytes ..)
    apply takePush_eq.mpr
    refine ⟨back, ?_⟩
    show bytes.length = ofLe _
    rw [front, ofLe_leBytes_of_lt bound]

/-- An instruction is a push iff the script begins with a way to push the bytes. -/
theorem nextInstruction_push :
    nextInstruction code rest = (.pushBytes bytes, after) ↔
      ∃ enc, PushOf bytes enc ∧ code :: rest = enc ++ after := by
  unfold nextInstruction
  constructor
  · intro next
    split_ifs at next with direct one two four
    · obtain ⟨rfl, size⟩ := takePush_eq.mp next
      have push : PushOf bytes (.ofNat bytes.length :: bytes) := .direct (size ▸ direct)
      rw [size, UInt8.ofNat_toNat] at push
      exact ⟨_, push, rfl⟩
    · obtain ⟨rfl, bound⟩ := takePushData_eq.mp next
      exact ⟨_, .data (by simp [one]) bound, rfl⟩
    · obtain ⟨rfl, bound⟩ := takePushData_eq.mp next
      exact ⟨_, .data (by simp [two]) bound, rfl⟩
    · obtain ⟨rfl, bound⟩ := takePushData_eq.mp next
      exact ⟨_, .data (by simp [four]) bound, rfl⟩
    · cases next
  · rintro ⟨enc, push, same⟩
    cases push with
    | direct short =>
      obtain ⟨rfl, rfl⟩ := List.cons.inj same
      have value : (UInt8.ofNat bytes.length).toNat = bytes.length := by
        rw [UInt8.toNat_ofNat']
        omega
      rw [value, if_pos short]
      exact takePush_eq.mpr ⟨rfl, rfl⟩
    | data known bound =>
      obtain ⟨rfl, rfl⟩ := List.cons.inj same
      simp only [List.mem_cons, Prod.mk.injEq, List.not_mem_nil, or_false] at known
      rcases known with ⟨rfl, rfl⟩ | ⟨rfl, rfl⟩ | ⟨rfl, rfl⟩
      all_goals exact takePushData_eq.mpr ⟨rfl, bound⟩

theorem takePush_ne_op {n : ℕ} : takePush n rest ≠ (.op c, after) := by
  unfold takePush
  split <;> intro same <;> cases same

theorem takePushData_ne_op {width : ℕ} : takePushData width rest ≠ (.op c, after) := by
  unfold takePushData
  split
  · exact takePush_ne_op
  · intro same
    cases same

/-- An instruction is an opcode iff the opcode pushes nothing. -/
theorem nextInstruction_op :
    nextInstruction code rest = (.op c, after) ↔ 78 < code.toNat ∧ c = code ∧ after = rest := by
  unfold nextInstruction
  constructor
  · intro next
    split_ifs at next with direct one two four
    · exact absurd next takePush_ne_op
    · exact absurd next takePushData_ne_op
    · exact absurd next takePushData_ne_op
    · exact absurd next takePushData_ne_op
    · cases next
      refine ⟨?_, rfl, rfl⟩
      have ne (n : UInt8) (differ : code ≠ n) : code.toNat ≠ n.toNat :=
        fun same => differ (UInt8.toNat_inj.mp same)
      have h76 := ne 76 one
      have h77 := ne 77 two
      have h78 := ne 78 four
      simp only [UInt8.reduceToNat] at h76 h77 h78
      omega
  · rintro ⟨large, rfl, rfl⟩
    have ne (n : UInt8) (small : n.toNat ≤ 78) : c ≠ n := by
      rintro rfl
      omega
    rw [if_neg (by omega), if_neg (ne 76 (by decide)), if_neg (ne 77 (by decide)),
      if_neg (ne 78 (by decide))]

/-- The instructions of a script are a push and `OP_CHECKSIG` iff the script is. -/
theorem instructions_eq {s : Script} :
    instructions s = [.pushBytes bytes, .op 0xac] ↔
      ∃ enc, PushOf bytes enc ∧ s = enc ++ [0xac] := by
  cases s with
  | nil =>
    constructor
    · intro none
      cases none
    · rintro ⟨enc, _, same⟩
      exact absurd same.symm (List.append_ne_nil_of_right_ne_nil enc (List.cons_ne_nil _ _))
  | cons code rest =>
    show (nextInstruction code rest).1 ::
      instructionsFrom rest.length (nextInstruction code rest).2 = _ ↔ _
    constructor
    · intro all
      obtain ⟨first, last⟩ := List.cons.inj all
      obtain ⟨enc, push, split⟩ := nextInstruction_push.mp (Prod.ext first rfl :
        nextInstruction code rest = (.pushBytes bytes, (nextInstruction code rest).2))
      refine ⟨enc, push, ?_⟩
      rw [split]
      have shorter : (nextInstruction code rest).2.length ≤ rest.length := by
        have size := congrArg List.length split
        have pos := List.length_pos_of_ne_nil push.ne_nil
        rw [List.length_append, List.length_cons] at size
        omega
      generalize (nextInstruction code rest).2 = left at last shorter
      generalize rest.length = fuel at last shorter
      cases left with
      | nil => cases fuel <;> cases last
      | cons c tail =>
        cases fuel with
        | zero => exact absurd shorter (by simp)
        | succ fuel =>
          obtain ⟨op, nothing⟩ := List.cons.inj last
          obtain ⟨_, rfl, same⟩ := nextInstruction_op.mp (Prod.ext op rfl :
            nextInstruction c tail = (.op 0xac, (nextInstruction c tail).2))
          rw [same] at nothing
          cases tail with
          | nil => rfl
          | cons d tail =>
            cases fuel with
            | zero => simp at shorter
            | succ fuel => cases nothing
    · rintro ⟨enc, push, same⟩
      have next := nextInstruction_push.mpr ⟨enc, push, same⟩
      have some : rest ≠ [] := by
        rintro rfl
        have size := congrArg List.length same
        have pos := List.length_pos_of_ne_nil push.ne_nil
        simp only [List.length_cons, List.length_nil, List.length_append] at size
        omega
      obtain ⟨fuel, size⟩ := Nat.exists_eq_succ_of_ne_zero (List.length_pos_of_ne_nil some).ne'
      rw [next, size]
      cases fuel <;> rfl

end Instructions

/-! ## The patterns of the documentation -/

/-- The script is of the pattern listed for the type. -/
def Pattern (crate : AddressCrate) : ScriptType → Script → Prop
  | .P2PKH, s => ∃ hash : List UInt8, hash.length = 20 ∧
      s = [0x76, 0xa9, 0x14] ++ (hash ++ [0x88, 0xac])
  | .P2SH, s => ∃ hash : List UInt8, hash.length = 20 ∧ s = [0xa9, 0x14] ++ (hash ++ [0x87])
  | .P2WPKH, s => ∃ program : List UInt8, program.length = 20 ∧ s = [0x00, 0x14] ++ program
  | .P2WSH, s => ∃ program : List UInt8, program.length = 32 ∧ s = [0x00, 0x20] ++ program
  | .P2TR, s => ∃ program : List UInt8, program.length = 32 ∧ s = [0x51, 0x20] ++ program
  | .NullData, s => ∃ data, s = 0x6a :: data
  | .P2PK, s => ∃ key enc, PushOf key enc ∧ crate.publicKeyFromSlice key = true ∧ s = enc ++ [0xac]
  | .Unknown, _ => False

/-- The script is of the type by the documentation: of its pattern, or of none. -/
def Documented (crate : AddressCrate) (t : ScriptType) (s : Script) : Prop :=
  Pattern crate t s ∨ t = .Unknown ∧ ∀ t', ¬ Pattern crate t' s

/-- What the crate documents of the parts the extraction rests on: an address is made of the two
hash patterns and of witness programs of an allowed length, and a public key has 33 or 65 bytes. -/
structure AddressCrate.Standard (crate : AddressCrate) : Prop where
  fromScript : ∀ s network, (crate.fromScript s network).isSome ↔
    Script.isP2pkh s ∨ Script.isP2sh s ∨ Script.isWitnessProgram s ∧
      (Script.witnessVersion s = some 0 → s.length = 22 ∨ s.length = 34)
  publicKey : ∀ key, crate.publicKeyFromSlice key = true → key.length = 33 ∨ key.length = 65

variable {crate : AddressCrate} {s : Script} {network : Network}

theorem drop_of_getElem? {l : List UInt8} {i : ℕ} {b : UInt8} (at_i : l[i]? = some b) :
    l.drop i = b :: l.drop (i + 1) := by
  obtain ⟨lt, rfl⟩ := List.getElem?_eq_some_iff.mp at_i
  exact List.drop_eq_getElem_cons lt

/-- The two parts of what follows a prefix. -/
theorem drop_split (l : List UInt8) (i n : ℕ) : l.drop i = (l.drop i).take n ++ l.drop (i + n) := by
  rw [← List.drop_drop, List.take_append_drop]

theorem isP2pkh_iff : Script.isP2pkh s ↔ Pattern crate .P2PKH s := by
  unfold Script.isP2pkh Pattern
  rw [decide_eq_true_eq]
  constructor
  · rintro ⟨size, h0, h1, h2, h23, h24⟩
    refine ⟨(s.drop 3).take 20, by simp [size], ?_⟩
    have last : s.drop 25 = [] := List.drop_eq_nil_of_le (Nat.le_of_eq size)
    have whole : s = s.drop 0 := rfl
    rw [drop_of_getElem? h0, drop_of_getElem? h1, drop_of_getElem? h2, drop_split s 3 20,
      drop_of_getElem? h23, drop_of_getElem? h24, last] at whole
    exact whole
  · rintro ⟨hash, size, rfl⟩
    simp [size]

theorem isP2sh_iff : Script.isP2sh s ↔ Pattern crate .P2SH s := by
  unfold Script.isP2sh Pattern
  rw [decide_eq_true_eq]
  constructor
  · rintro ⟨size, h0, h1, h22⟩
    refine ⟨(s.drop 2).take 20, by simp [size], ?_⟩
    have last : s.drop 23 = [] := List.drop_eq_nil_of_le (Nat.le_of_eq size)
    have whole : s = s.drop 0 := rfl
    rw [drop_of_getElem? h0, drop_of_getElem? h1, drop_split s 2 20, drop_of_getElem? h22,
      last] at whole
    exact whole
  · rintro ⟨hash, size, rfl⟩
    simp [size]

theorem isOpReturn_iff : Script.isOpReturn s ↔ Pattern crate .NullData s := by
  unfold Pattern
  cases s with
  | nil => simp [Script.isOpReturn]
  | cons op data => simp [Script.isOpReturn]

/-- A witness program: the opcode of its version, its length, and that many bytes. -/
theorem isWitnessProgram_iff : Script.isWitnessProgram s ↔
    ∃ ver push program, s = ver :: push :: program ∧ (Script.witnessVersionOf ver).isSome ∧
      2 ≤ program.length ∧ program.length ≤ 40 ∧ push = .ofNat program.length := by
  cases s with
  | nil => simp [Script.isWitnessProgram]
  | cons ver tail =>
    cases tail with
    | nil => simp [Script.isWitnessProgram]
    | cons push program =>
      unfold Script.isWitnessProgram
      rw [decide_eq_true_eq]
      constructor
      · rintro ⟨version, low, high, size⟩
        refine ⟨ver, push, program, rfl, version, by omega, by omega, ?_⟩
        rw [size, UInt8.ofNat_toNat]
      · rintro ⟨_, _, _, same, version, low, high, size⟩
        cases same
        have value : push.toNat = program.length := by
          rw [size, UInt8.toNat_ofNat']
          omega
        exact ⟨version, by omega, by omega, value.symm⟩

/-- The extraction of a public key succeeds iff the script is one with `OP_CHECKSIG`. -/
theorem extractP2pkAddress_isSome :
    (extractP2pkAddress crate s network).isSome ↔ Pattern crate .P2PK s := by
  unfold extractP2pkAddress Pattern
  constructor
  · intro some
    split at some
    · rename_i key listed
      obtain ⟨enc, push, same⟩ := instructions_eq.mp listed
      split at some
      · rename_i valid
        exact ⟨key, enc, push, valid, same⟩
      · cases some
    · cases some
  · rintro ⟨key, enc, push, valid, same⟩
    rw [instructions_eq.mpr ⟨enc, push, same⟩]
    simp only [valid, if_true, Option.isSome_some]

/-! ## At most one pattern -/

/-- What the first byte and the length of a script say about its type. -/
def Marked (first : UInt8) (length : ℕ) : ScriptType → Prop
  | .P2PKH => first = 0x76
  | .P2SH => first = 0xa9
  | .P2WPKH => first = 0x00 ∧ length = 22
  | .P2WSH => first = 0x00 ∧ length = 34
  | .P2TR => first = 0x51 ∧ length = 34
  | .NullData => first = 0x6a
  | .P2PK => 0 < first.toNat ∧ first.toNat ≤ 78
  | .Unknown => False

theorem marked_unique {first : UInt8} {length : ℕ} {t t' : ScriptType}
    (h : Marked first length t) (h' : Marked first length t') : t = t' := by
  cases t <;> cases t' <;> simp_all [Marked]

theorem Pattern.marked (standard : crate.Standard) {t : ScriptType} (h : Pattern crate t s) :
    ∃ first tail, s = first :: tail ∧ Marked first s.length t := by
  cases t with
  | P2PKH =>
    obtain ⟨hash, _, rfl⟩ := h
    exact ⟨_, _, rfl, rfl⟩
  | P2SH =>
    obtain ⟨hash, _, rfl⟩ := h
    exact ⟨_, _, rfl, rfl⟩
  | P2WPKH =>
    obtain ⟨program, size, rfl⟩ := h
    exact ⟨_, _, rfl, rfl, by simp [size]⟩
  | P2WSH =>
    obtain ⟨program, size, rfl⟩ := h
    exact ⟨_, _, rfl, rfl, by simp [size]⟩
  | P2TR =>
    obtain ⟨program, size, rfl⟩ := h
    exact ⟨_, _, rfl, rfl, by simp [size]⟩
  | NullData =>
    obtain ⟨data, rfl⟩ := h
    exact ⟨_, _, rfl, rfl⟩
  | P2PK =>
    obtain ⟨key, enc, push, valid, rfl⟩ := h
    have size := standard.publicKey key valid
    cases push with
    | direct short =>
      refine ⟨_, _, rfl, ?_⟩
      show 0 < (UInt8.ofNat key.length).toNat ∧ (UInt8.ofNat key.length).toNat ≤ 78
      rw [UInt8.toNat_ofNat']
      omega
    | data known _ =>
      simp only [List.mem_cons, Prod.mk.injEq, List.not_mem_nil, or_false] at known
      rcases known with ⟨rfl, rfl⟩ | ⟨rfl, rfl⟩ | ⟨rfl, rfl⟩
      all_goals exact ⟨_, _, rfl, by decide, by decide⟩
  | Unknown => exact absurd h id

theorem Pattern.unique (standard : crate.Standard) {t t' : ScriptType} (h : Pattern crate t s)
    (h' : Pattern crate t' s) : t = t' := by
  obtain ⟨first, tail, same, marked⟩ := h.marked standard
  obtain ⟨first', tail', same', marked'⟩ := h'.marked standard
  rw [same] at same'
  cases same'
  exact marked_unique marked marked'

theorem Documented.unique (standard : crate.Standard) {t t' : ScriptType}
    (h : Documented crate t s) (h' : Documented crate t' s) : t = t' := by
  rcases h with pattern | ⟨rfl, none⟩
  · rcases h' with pattern' | ⟨_, none⟩
    · exact pattern.unique standard pattern'
    · exact absurd pattern (none t)
  · rcases h' with pattern' | ⟨rfl, _⟩
    · exact absurd pattern' (none t')
    · rfl

/-- No pattern begins with this byte at this length. -/
theorem documented_unknown (standard : crate.Standard) {first : UInt8} {tail : List UInt8}
    (unmarked : ∀ t, ¬ Marked first (first :: tail).length t) :
    Documented crate .Unknown (first :: tail) := by
  refine Or.inr ⟨rfl, fun t pattern => ?_⟩
  obtain ⟨_, _, same, marked⟩ := pattern.marked standard
  cases same
  exact unmarked t marked

/-! ## What is reported -/

/-- A witness program of version 1 that is not 32 bytes long. -/
def OddTaproot (s : Script) : Prop :=
  ∃ push program, s = 0x51 :: push :: program ∧ push = .ofNat program.length ∧
    2 ≤ program.length ∧ program.length ≤ 40 ∧ program.length ≠ 32

/-- The information is that of the documentation: the script's type, with an address unless it is
`NullData` or `Unknown`. -/
structure AddressInfo.Describes (crate : AddressCrate) (s : Script) (info : AddressInfo) :
    Prop where
  scriptType : ∀ t, info.scriptType = t ↔ Documented crate t s
  address : info.address.isSome ↔ info.scriptType ≠ .NullData ∧ info.scriptType ≠ .Unknown

theorem describes_some (standard : crate.Standard) {t : ScriptType} {address : Address}
    (pattern : Pattern crate t s) (spendable : t ≠ .NullData) :
    AddressInfo.Describes crate s ⟨some address, t⟩ := by
  refine ⟨fun t' => ⟨?_, fun documented => ?_⟩, ?_⟩
  · rintro rfl
    exact Or.inl pattern
  · exact Documented.unique standard (Or.inl pattern) documented
  · refine iff_of_true rfl ⟨spendable, ?_⟩
    rintro rfl
    exact pattern

theorem describes_none (standard : crate.Standard) {t : ScriptType}
    (documented : Documented crate t s) (bare : t = .NullData ∨ t = .Unknown) :
    AddressInfo.Describes crate s ⟨none, t⟩ := by
  refine ⟨fun t' => ⟨?_, fun documented' => ?_⟩, ?_⟩
  · rintro rfl
    exact documented
  · exact Documented.unique standard documented documented'
  · refine iff_of_false Bool.false_ne_true fun ⟨notNull, known⟩ => ?_
    exact bare.elim notNull known

theorem addressAs_some {t : ScriptType} (found : (crate.fromScript s network).isSome) :
    ∃ address, addressAs crate s network t = ⟨some address, t⟩ ∧
      crate.fromScript s network = some address := by
  obtain ⟨address, same⟩ := Option.isSome_iff_exists.mp found
  unfold addressAs
  rw [same]
  exact ⟨address, rfl, rfl⟩

theorem addressAs_none {t : ScriptType} (absent : crate.fromScript s network = none) :
    addressAs crate s network t = ⟨none, .Unknown⟩ := by
  unfold addressAs
  rw [absent]

/-- The first byte of a witness program of a version. -/
theorem witnessVersionOf_cases {ver : UInt8} {v : ℕ} (h : Script.witnessVersionOf ver = some v) :
    ver = 0 ∧ v = 0 ∨ 0x51 ≤ ver ∧ ver ≤ 0x60 ∧ v = ver.toNat - 0x50 := by
  unfold Script.witnessVersionOf at h
  split at h
  · rename_i zero
    cases h
    exact Or.inl ⟨zero, rfl⟩
  · split at h
    · rename_i range
      cases h
      exact Or.inr ⟨range.1, range.2, rfl⟩
    · cases h

/-- A witness program is none of the patterns tried before it. -/
theorem witness_first (program : Script.isWitnessProgram s) :
    Script.isOpReturn s = false ∧ Script.isP2pkh s = false ∧ Script.isP2sh s = false := by
  obtain ⟨ver, push, rest, rfl, version, _⟩ := isWitnessProgram_iff.mp program
  obtain ⟨v, known⟩ := Option.isSome_iff_exists.mp version
  have ne (b : UInt8) (zero : b ≠ 0) (outside : ¬ (0x51 ≤ b ∧ b ≤ 0x60)) : ver ≠ b := by
    rintro rfl
    rcases witnessVersionOf_cases known with ⟨same, _⟩ | ⟨low, high, _⟩
    · exact zero same
    · exact outside ⟨low, high⟩
  refine ⟨?_, ?_, ?_⟩
  · simp [Script.isOpReturn, ne 0x6a (by decide) (by decide)]
  · simp [Script.isP2pkh, ne 0x76 (by decide) (by decide)]
  · simp [Script.isP2sh, ne 0xa9 (by decide) (by decide)]

section Branches

variable (crate network)

theorem extractAddress_opReturn (op : Script.isOpReturn s) :
    extractAddress crate s network = ⟨none, .NullData⟩ := by
  simp only [extractAddress, op, if_true]

theorem extractAddress_p2pkh (op : ¬ Script.isOpReturn s) (pkh : Script.isP2pkh s) :
    extractAddress crate s network = addressAs crate s network .P2PKH := by
  simp only [extractAddress, op, pkh, if_true, if_false, Bool.false_eq_true]

theorem extractAddress_p2sh (op : ¬ Script.isOpReturn s) (pkh : ¬ Script.isP2pkh s)
    (sh : Script.isP2sh s) :
    extractAddress crate s network = addressAs crate s network .P2SH := by
  simp only [extractAddress, op, pkh, sh, if_true, if_false, Bool.false_eq_true]

theorem extractAddress_v0 (program : Script.isWitnessProgram s)
    (version : Script.witnessVersion s = some 0) :
    extractAddress crate s network = addressAs crate s network
      (if s.length = 22 then .P2WPKH else if s.length = 34 then .P2WSH else .Unknown) := by
  obtain ⟨op, pkh, sh⟩ := witness_first program
  simp only [extractAddress, op, pkh, sh, program, version, Bool.false_eq_true, if_false, if_true]

theorem extractAddress_v1 (program : Script.isWitnessProgram s)
    (version : Script.witnessVersion s = some 1) :
    extractAddress crate s network = addressAs crate s network .P2TR := by
  obtain ⟨op, pkh, sh⟩ := witness_first program
  simp only [extractAddress, op, pkh, sh, program, version, Bool.false_eq_true, if_false, if_true]

theorem extractAddress_later (program : Script.isWitnessProgram s) {v : ℕ}
    (version : Script.witnessVersion s = some (v + 2)) :
    extractAddress crate s network = ⟨none, .Unknown⟩ := by
  obtain ⟨op, pkh, sh⟩ := witness_first program
  simp only [extractAddress, op, pkh, sh, program, version, Bool.false_eq_true, if_false, if_true]

variable {crate network}

theorem extractAddress_p2pk (op : ¬ Script.isOpReturn s) (pkh : ¬ Script.isP2pkh s)
    (sh : ¬ Script.isP2sh s) (program : ¬ Script.isWitnessProgram s) {address : Address}
    (key : extractP2pkAddress crate s network = some address) :
    extractAddress crate s network = ⟨some address, .P2PK⟩ := by
  simp only [extractAddress, op, pkh, sh, program, key, if_false, Bool.false_eq_true]

theorem extractAddress_unknown (op : ¬ Script.isOpReturn s) (pkh : ¬ Script.isP2pkh s)
    (sh : ¬ Script.isP2sh s) (program : ¬ Script.isWitnessProgram s)
    (key : extractP2pkAddress crate s network = none) :
    extractAddress crate s network = ⟨none, .Unknown⟩ := by
  simp only [extractAddress, op, pkh, sh, program, key, if_false, Bool.false_eq_true]

end Branches

/-- A witness program of version 0: of 20 bytes, of 32, or of no pattern. -/
theorem describes_v0 (standard : crate.Standard) (program : Script.isWitnessProgram s)
    (version : Script.witnessVersion s = some 0) :
    (extractAddress crate s network).Describes crate s := by
  have found := standard.fromScript s network
  obtain ⟨_, pkh, sh⟩ := witness_first program
  obtain ⟨ver, push, rest, rfl, _, _, _, size⟩ := isWitnessProgram_iff.mp program
  have zero : ver = 0 := by
    rcases witnessVersionOf_cases version with ⟨same, _⟩ | ⟨low, _, same⟩
    · exact same
    · rw [UInt8.le_iff_toNat_le] at low
      simp only [UInt8.reduceToNat] at low
      omega
  subst zero
  rw [extractAddress_v0 crate network program version]
  by_cases short : (0 :: push :: rest).length = 22
  · obtain ⟨address, is, _⟩ := addressAs_some (t := .P2WPKH)
      (found.mpr (Or.inr (Or.inr ⟨program, fun _ => Or.inl short⟩)))
    have width : rest.length = 20 := by simpa using short
    rw [if_pos short, is]
    rw [width] at size
    exact describes_some standard (t := .P2WPKH) ⟨rest, width, by rw [size]; rfl⟩ (by decide)
  by_cases long : (0 :: push :: rest).length = 34
  · obtain ⟨address, is, _⟩ := addressAs_some (t := .P2WSH)
      (found.mpr (Or.inr (Or.inr ⟨program, fun _ => Or.inr long⟩)))
    have width : rest.length = 32 := by simpa using long
    rw [if_neg short, if_pos long, is]
    rw [width] at size
    exact describes_some standard (t := .P2WSH) ⟨rest, width, by rw [size]; rfl⟩ (by decide)
  · have absent : crate.fromScript (0 :: push :: rest) network = none := by
      apply Option.not_isSome_iff_eq_none.mp
      intro some
      rcases found.mp some with same | same | ⟨_, allowed⟩
      · rw [pkh] at same
        cases same
      · rw [sh] at same
        cases same
      · exact (allowed version).elim short long
    rw [addressAs_none absent]
    refine describes_none standard (documented_unknown standard fun t => ?_) (Or.inr rfl)
    cases t <;> simp_all [Marked]

theorem describes_v1 (standard : crate.Standard) (program : Script.isWitnessProgram s)
    (version : Script.witnessVersion s = some 1) (usual : ¬ OddTaproot s) :
    (extractAddress crate s network).Describes crate s := by
  have found := standard.fromScript s network
  obtain ⟨ver, push, rest, rfl, _, low, high, size⟩ := isWitnessProgram_iff.mp program
  have one : ver = 0x51 := by
    rcases witnessVersionOf_cases version with ⟨_, same⟩ | ⟨_, _, same⟩
    · cases same
    · apply UInt8.toNat_inj.mp
      simp only [UInt8.reduceToNat]
      omega
  subst one
  have width : rest.length = 32 := by
    by_contra odd
    exact usual ⟨push, rest, rfl, size, low, high, odd⟩
  obtain ⟨address, is, _⟩ := addressAs_some (t := .P2TR) (found.mpr (Or.inr (Or.inr
    ⟨program, fun zero => absurd (version.symm.trans zero) (by decide)⟩)))
  rw [extractAddress_v1 crate network program version, is]
  rw [width] at size
  exact describes_some standard (t := .P2TR) ⟨rest, width, by rw [size]; rfl⟩ (by decide)

/-- A later version has no pattern. -/
theorem describes_later (standard : crate.Standard) (program : Script.isWitnessProgram s) {v : ℕ}
    (version : Script.witnessVersion s = some (v + 2)) :
    (extractAddress crate s network).Describes crate s := by
  rw [extractAddress_later crate network program version]
  obtain ⟨ver, push, rest, rfl, _⟩ := isWitnessProgram_iff.mp program
  have range : 0x52 ≤ ver.toNat ∧ ver.toNat ≤ 0x60 := by
    rcases witnessVersionOf_cases version with ⟨_, same⟩ | ⟨_, high, same⟩
    · cases same
    · rw [UInt8.le_iff_toNat_le] at high
      simp only [UInt8.reduceToNat] at high
      omega
  refine describes_none standard (documented_unknown standard fun t marked => ?_) (Or.inr rfl)
  cases t <;> simp only [Marked] at marked
  case P2PK => omega
  case P2WPKH => simp [marked.1] at range
  case P2WSH => simp [marked.1] at range
  case P2TR => simp [marked.1] at range
  all_goals simp [marked] at range

/-- A script of none of the patterns before is a public key's or of no pattern. -/
theorem describes_rest (standard : crate.Standard) (op : ¬ Script.isOpReturn s)
    (pkh : ¬ Script.isP2pkh s) (sh : ¬ Script.isP2sh s) (program : ¬ Script.isWitnessProgram s) :
    (extractAddress crate s network).Describes crate s := by
  cases key : extractP2pkAddress crate s network with
  | some address =>
    have pattern : Pattern crate .P2PK s := by
      apply extractP2pkAddress_isSome.mp
      rw [key]
      rfl
    rw [extractAddress_p2pk op pkh sh program key]
    exact describes_some standard pattern (by decide)
  | none =>
    have segwit (ver push : UInt8) (rest : List UInt8)
        (known : (Script.witnessVersionOf ver).isSome) (low : 2 ≤ rest.length)
        (high : rest.length ≤ 40) (size : push = .ofNat rest.length) :
        s ≠ ver :: push :: rest := fun same =>
      program (isWitnessProgram_iff.mpr ⟨ver, push, rest, same, known, low, high, size⟩)
    rw [extractAddress_unknown op pkh sh program key]
    refine describes_none standard (Or.inr ⟨rfl, fun t pattern => ?_⟩) (Or.inr rfl)
    cases t with
    | P2PKH => exact pkh (isP2pkh_iff.mpr pattern)
    | P2SH => exact sh (isP2sh_iff.mpr pattern)
    | P2WPKH =>
      obtain ⟨rest, size, same⟩ := pattern
      exact segwit 0x00 0x14 rest rfl (by omega) (by omega) (by rw [size]; rfl) same
    | P2WSH =>
      obtain ⟨rest, size, same⟩ := pattern
      exact segwit 0x00 0x20 rest rfl (by omega) (by omega) (by rw [size]; rfl) same
    | P2TR =>
      obtain ⟨rest, size, same⟩ := pattern
      exact segwit 0x51 0x20 rest rfl (by omega) (by omega) (by rw [size]; rfl) same
    | NullData => exact op (isOpReturn_iff.mpr pattern)
    | P2PK =>
      have some : (extractP2pkAddress crate s network).isSome :=
        extractP2pkAddress_isSome.mpr pattern
      rw [key] at some
      cases some
    | Unknown => exact pattern

/-- **Reporting, away from odd Taproot programs.** -/
theorem describes_extractAddress (standard : crate.Standard) (usual : ¬ OddTaproot s) :
    (extractAddress crate s network).Describes crate s := by
  have found := standard.fromScript s network
  by_cases op : Script.isOpReturn s
  · rw [extractAddress_opReturn crate network op]
    exact describes_none standard (Or.inl (isOpReturn_iff.mp op)) (Or.inl rfl)
  by_cases pkh : Script.isP2pkh s
  · obtain ⟨address, is, _⟩ := addressAs_some (t := .P2PKH) (found.mpr (Or.inl pkh))
    rw [extractAddress_p2pkh crate network op pkh, is]
    exact describes_some standard (isP2pkh_iff.mp pkh) (by decide)
  by_cases sh : Script.isP2sh s
  · obtain ⟨address, is, _⟩ := addressAs_some (t := .P2SH) (found.mpr (Or.inr (Or.inl sh)))
    rw [extractAddress_p2sh crate network op pkh sh, is]
    exact describes_some standard (isP2sh_iff.mp sh) (by decide)
  by_cases program : Script.isWitnessProgram s
  · obtain ⟨ver, push, rest, rfl, known, _⟩ := isWitnessProgram_iff.mp program
    obtain ⟨v, version⟩ := Option.isSome_iff_exists.mp known
    cases v with
    | zero => exact describes_v0 standard program version
    | succ v =>
      cases v with
      | zero => exact describes_v1 standard program version usual
      | succ v => exact describes_later standard program version
  · exact describes_rest standard op pkh sh program

/-- An odd Taproot program is reported as Taproot, which it is not. -/
theorem not_describes_oddTaproot (standard : crate.Standard) (odd : OddTaproot s) :
    ¬ (extractAddress crate s network).Describes crate s := by
  obtain ⟨push, rest, rfl, size, low, high, differ⟩ := odd
  intro describes
  have program : Script.isWitnessProgram (0x51 :: push :: rest) :=
    isWitnessProgram_iff.mpr ⟨_, _, _, rfl, rfl, low, high, size⟩
  have version : Script.witnessVersion (0x51 :: push :: rest) = some 1 := rfl
  obtain ⟨address, is, _⟩ := addressAs_some (t := .P2TR)
    ((standard.fromScript (0x51 :: push :: rest) network).mpr (Or.inr (Or.inr
      ⟨program, fun zero => absurd (version.symm.trans zero) (by decide)⟩)))
  rw [extractAddress_v1 crate network program version, is] at describes
  rcases (describes.scriptType .P2TR).mp rfl with ⟨rest', size', same⟩ | ⟨impossible, _⟩
  · cases same
    exact differ size'
  · cases impossible

/-- **Script types.** The report is that of the documentation iff the script is no witness program
of version 1 of another length than 32 bytes. -/
theorem describes_iff (crate : AddressCrate) (standard : crate.Standard) (s : Script)
    (network : Network) :
    (extractAddress crate s network).Describes crate s ↔ ¬ OddTaproot s :=
  ⟨fun describes odd => not_describes_oddTaproot standard odd describes,
    fun usual => describes_extractAddress standard usual⟩

namespace Sample

/-- The anchor output: a witness program of version 1 of two bytes. -/
def anchor : Script := [0x51, 0x02, 0x4e, 0x73]

/-- A crate with one address to tell, and no use for public keys. -/
def textCrate (text : Address) : AddressCrate where
  fromScript s _ :=
    if Script.isP2pkh s ∨ Script.isP2sh s ∨ Script.isWitnessProgram s ∧
        (Script.witnessVersion s = some 0 → s.length = 22 ∨ s.length = 34) then
      some text
    else none
  publicKeyFromSlice _ := false
  p2pkh _ _ := ""

theorem standard_textCrate (text : Address) : (textCrate text).Standard where
  fromScript s network := by
    show (if _ then some text else none : Option Address).isSome ↔ _
    split
    · rename_i known
      exact iff_of_true rfl known
    · rename_i unknown
      exact iff_of_false Bool.false_ne_true unknown
  publicKey key valid := by cases valid

/-- The crate as far as the anchor goes. -/
def anchorCrate : AddressCrate := textCrate "bc1pfeessrawgf"

theorem oddTaproot_anchor : OddTaproot anchor :=
  ⟨_, _, rfl, rfl, by decide, by decide, by decide⟩

/-- A script of version 0 with the hash of a key. -/
def keyHash : Script :=
  [0x00, 0x14, 0x75, 0x1e, 0x76, 0xe8, 0x19, 0x91, 0x96, 0xd4, 0x54, 0x94, 0x1c, 0x45, 0xd1, 0xb3,
    0xa3, 0x23, 0xf1, 0x43, 0x3b, 0xd6]

/-- The crate as far as this script goes. -/
def keyHashCrate : AddressCrate := textCrate "bc1qw508d6qejxtdg4y5r3zarvary0c5xw7kv8f3t4"

end Sample

/-- The anchor is reported as Taproot, with its address. -/
theorem anchor_reported : extractAddress Sample.anchorCrate Sample.anchor .Bitcoin =
      ⟨some "bc1pfeessrawgf", .P2TR⟩ ∧
    ¬ (extractAddress Sample.anchorCrate Sample.anchor .Bitcoin).Describes Sample.anchorCrate
      Sample.anchor :=
  ⟨by decide, not_describes_oddTaproot (Sample.standard_textCrate _) Sample.oddTaproot_anchor⟩

/-- An ordinary output, locked to the hash of a key, and a lone `OP_RETURN` are reported as
documented. -/
theorem describes_iff_sample : Sample.keyHashCrate.Standard ∧
    (extractAddress Sample.keyHashCrate Sample.keyHash .Bitcoin).Describes Sample.keyHashCrate
      Sample.keyHash ∧
    (extractAddress Sample.keyHashCrate [0x6a] .Bitcoin).Describes Sample.keyHashCrate [0x6a] := by
  have standard : Sample.keyHashCrate.Standard := Sample.standard_textCrate _
  refine ⟨standard, (describes_iff _ standard Sample.keyHash .Bitcoin).mpr ?_,
    (describes_iff _ standard [0x6a] .Bitcoin).mpr ?_⟩
  · rintro ⟨_, _, same, _⟩
    cases same
  · rintro ⟨_, _, same, _⟩
    cases same

end ChainGraph
