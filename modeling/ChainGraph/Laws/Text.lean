import ChainGraph.Domain.Text

/-!
# Identifiers and their texts

The text of an output identifier is written in four places and read back in a fifth. They agree, and
the text determines the outpoint: the txid has sixty-four digits, a colon follows, and decimal
numbers differ where their values do. So records that carry the pair in place of the text say the
same.
-/

namespace ChainGraph

open Foundation

/-! ## Hashes -/

namespace Hash256

theorem fromByteArray_toByteArray (h : Hash256) : fromByteArray h.toByteArray = h := by
  have bound : h.toNat < 256 ^ 32 := Nat.lt_of_lt_of_eq h.isLt (by decide)
  unfold fromByteArray toByteArray
  rw [ofLe_leBytes_of_lt bound, BitVec.ofNat_toNat, BitVec.setWidth_eq]

theorem toByteArray_injective : Function.Injective toByteArray := by
  intro a b same
  rw [← fromByteArray_toByteArray a, same, fromByteArray_toByteArray]

theorem toList_display (h : Hash256) : h.display.toList = Hex.encode h.toByteArray.reverse :=
  String.toList_ofList

theorem length_display (h : Hash256) : h.display.toList.length = 64 := by
  rw [toList_display, Hex.length_encode, List.length_reverse, toByteArray, length_leBytes]

/-- A hash is parsed as it was printed. -/
theorem fromStr_display (h : Hash256) : fromStr h.display = some h := by
  have size : h.toByteArray.reverse.length = 32 := by
    rw [List.length_reverse, toByteArray, length_leBytes]
  unfold fromStr
  rw [toList_display, Hex.decode_encode]
  simp only [Option.bind_eq_bind, Option.bind_some, size, if_true, List.reverse_reverse,
    fromByteArray_toByteArray]

theorem display_injective : Function.Injective display := by
  intro a b same
  have read := fromStr_display a
  rw [same, fromStr_display] at read
  exact (Option.some.inj read).symm

end Hash256

/-! ## Output identifiers -/

/-- The text of an output identifier. -/
def OutputId.text (id : OutputId) : String := s!"{id.txid.display}:{id.vout}"

theorem toList_text (id : OutputId) :
    (OutputId.text id).toList = id.txid.display.toList ++ ':' :: id.vout.repr.toList := by
  unfold OutputId.text
  rw [String.toList_append, String.toList_append]
  simp only [List.append_assoc]
  rfl

/-- The text of an identifier determines it. -/
theorem text_injective : Function.Injective OutputId.text := by
  intro a b same
  have lists := congrArg String.toList same
  rw [toList_text, toList_text] at lists
  obtain ⟨txids, vouts⟩ := Hex.eq_of_separated
    (a.txid.length_display.trans b.txid.length_display.symm) lists
  obtain ⟨txid, vout⟩ := a
  obtain ⟨txid', vout'⟩ := b
  cases Hash256.display_injective (String.toList_inj.mp txids)
  cases vouts
  rfl

namespace CompactKey

theorem fromHexTxid_display (o : OutPoint) :
    fromHexTxid o.txid.display o.vout = some (fromOutpoint o) := by
  unfold fromHexTxid
  rw [Hash256.fromStr_display]
  rfl

theorem toOutputIdString_fromOutpoint (o : OutPoint) :
    (fromOutpoint o).toOutputIdString = OutputId.text o := by
  unfold toOutputIdString fromOutpoint OutputId.text
  rw [Hash256.fromByteArray_toByteArray]

/-- Different outpoints have different keys. -/
theorem fromOutpoint_injective : Function.Injective fromOutpoint := by
  intro a b same
  have txids : a.txid.toByteArray = b.txid.toByteArray := congrArg CompactKey.txid same
  have vouts : a.vout = b.vout := congrArg CompactKey.vout same
  obtain ⟨txid, vout⟩ := a
  obtain ⟨txid', vout'⟩ := b
  cases Hash256.toByteArray_injective txids
  cases vouts
  rfl

end CompactKey

namespace Text

theorem outputId_fromOutput (crate : AddressCrate) (output : TxOut) (o : OutPoint)
    (network : Network) :
    (OutputData.fromOutput crate output o.txid.display o.vout network).outputId = OutputId.text o :=
  rfl

/-- What an input refers to, as a parameter. -/
theorem previousOutputId_inputToBoltMap (input : TxIn) (txid : String) (inputIndex height : ℕ) :
    (inputToBoltMap (.fromInput input txid inputIndex height)).getString "previousOutputId" =
      some (OutputId.text input.previousOutput) := rfl

/-! ## The lookup -/

/-- What the lookup says of an output that was stored. -/
def OutputData.lookup (out : OutputData) : OutputLookupResult where
  outputId := out.outputId
  outputIndex := out.outputIndex % 2 ^ 32
  amount := out.amount
  scriptType := out.scriptType
  address := out.address

def OutputData.node (out : OutputData) : OutputNode := createOutput (outputToBoltMap out)

theorem outputId_node (out : OutputData) :
    out.node.properties.getString "outputId" = some out.outputId := by
  obtain ⟨outputId, outputIndex, txid, amount, scriptPubkey, scriptType, address⟩ := out
  cases address <;> rfl

/-- An amount survives the signed type it is stored in. -/
theorem ofInt_asI64 (n : UInt64) : UInt64.ofInt (asI64 n) = n := by
  have small : n.toNat < 2 ^ 64 := n.toNat_lt
  have back : Int.bmod n.toNat (2 ^ 64) % 2 ^ 64 = n.toNat % 2 ^ 64 := Int.bmod_emod
  unfold asI64 UInt64.ofInt
  rw [back, Int.emod_eq_of_lt (by omega) (by omega), Int.toNat_natCast, UInt64.ofNat_toNat]

/-- The row of an output that was stored is read back. -/
theorem readRow_row (out : OutputData) : readRow out.node.row = some out.lookup := by
  have index : ((out.outputIndex : ℤ) % 2 ^ 32).toNat = out.outputIndex % 2 ^ 32 := by omega
  obtain ⟨outputId, outputIndex, txid, amount, scriptPubkey, scriptType, address⟩ := out
  unfold OutputData.lookup
  cases address with
  | none =>
    show some (OutputLookupResult.mk outputId _ (.ofInt (asI64 amount)) scriptType none) = _
    rw [ofInt_asI64, index]
  | some a =>
    show some (OutputLookupResult.mk outputId _ (.ofInt (asI64 amount)) scriptType (some a)) = _
    rw [ofInt_asI64, index]

theorem mapM_readRow (outs : List OutputData) :
    (outs.map fun out => out.node.row).mapM readRow = some (outs.map OutputData.lookup) := by
  induction outs with
  | nil => rfl
  | cons out outs ih =>
    rw [List.map_cons, List.mapM_cons, readRow_row, ih]
    rfl

/-- A lookup among stored outputs finds those with the identifiers. -/
theorem lookupOutputsBatch_node (outs : List OutputData) (outputIds : List String) :
    lookupOutputsBatch (outs.map OutputData.node) outputIds =
      some ((outputIds.flatMap fun oid => outs.filter (·.outputId = oid)).map
        OutputData.lookup) := by
  have rows : lookupRows (outs.map OutputData.node) outputIds =
      (outputIds.flatMap fun oid => outs.filter (·.outputId = oid)).map
        fun out => out.node.row := by
    unfold lookupRows
    rw [List.map_flatMap]
    apply congrArg (List.flatMap · outputIds)
    funext oid
    rw [List.filter_map, List.map_map]
    simp only [Function.comp_def, outputId_node, Option.some.injEq]
  unfold lookupOutputsBatch
  split
  · rename_i none
    rw [List.isEmpty_iff.mp none]
    rfl
  · rw [rows, mapM_readRow]

/-! ## The pairs in place of the texts -/

/-- An output's record as it is printed. -/
def printOutput (out : ChainGraph.OutputData) : OutputData where
  outputId := OutputId.text out.outputId
  outputIndex := out.outputIndex
  txid := out.txid.display
  amount := out.amount
  scriptPubkey := hexText out.scriptPubkey
  scriptType := scriptTypeText out.scriptType
  address := out.address

/-- An input's record as it is printed. -/
def printInput (inp : ChainGraph.InputData) : InputData where
  inputId := OutputId.text inp.inputId
  inputIndex := inp.inputIndex
  txid := inp.txid.display
  previousTxid := inp.previousTxid.display
  previousOutputIndex := inp.previousOutputIndex
  scriptSig := hexText inp.scriptSig
  sequence := inp.sequence
  witness := inp.witness.map hexText
  blockHeight := inp.blockHeight

/-- Making the record of an output from texts prints the record made from pairs. -/
theorem fromOutput_display (crate : AddressCrate) (output : TxOut) (txid : Txid)
    (outputIndex : ℕ) (network : Network) :
    OutputData.fromOutput crate output txid.display outputIndex network =
      printOutput (.fromOutput crate output txid outputIndex network) := rfl

theorem fromInput_display (input : TxIn) (txid : Txid) (inputIndex height : ℕ) :
    InputData.fromInput input txid.display inputIndex height =
      printInput (.fromInput input txid inputIndex height) := rfl

/-- Every row found is that of a stored output with the identifier. -/
theorem outputId_of_found {outs : List OutputData} {oid : String} {row : OutputLookupResult}
    (among : row ∈ ([oid].flatMap fun oid => outs.filter (·.outputId = oid)).map
      OutputData.lookup) : row.outputId = oid := by
  rw [List.flatMap_singleton] at among
  obtain ⟨out, found, rfl⟩ := List.mem_map.mp among
  exact of_decide_eq_true (List.mem_filter.mp found).2

end Text

/-! ## Agreement -/

/-- **Output identifiers.** For an outpoint the record of its output, the keys made of it and of the
text of its txid, the rows of the lookup and the parameter of an input that spends it have one text;
and neither two texts nor two keys of different outpoints are the same. -/
theorem output_ids_agree (crate : AddressCrate) (network : Network) (o : OutPoint) (output : TxOut)
    (input : TxIn) (spenderTxid : String) (inputIndex height : ℕ) (stored : List Text.OutputData) :
    let record := Text.OutputData.fromOutput crate output o.txid.display o.vout network
    let spender :=
      Text.InputData.fromInput { input with previousOutput := o } spenderTxid inputIndex
      height
    (CompactKey.fromOutpoint o).toOutputIdString = record.outputId ∧
    (CompactKey.fromHexTxid record.txid o.vout).map CompactKey.toOutputIdString =
      some record.outputId ∧
    (∃ found, Text.lookupOutputsBatch ((record :: stored).map Text.OutputData.node)
        [(CompactKey.fromOutpoint o).toOutputIdString] = some found ∧
      record.lookup ∈ found ∧ ∀ row ∈ found, row.outputId = record.outputId) ∧
    (Text.inputToBoltMap spender).getString "previousOutputId" = some record.outputId ∧
    Function.Injective (fun o : OutPoint => (CompactKey.fromOutpoint o).toOutputIdString) ∧
    Function.Injective CompactKey.fromOutpoint := by
  intro record spender
  have text : record.outputId = OutputId.text o := rfl
  have key : (CompactKey.fromOutpoint o).toOutputIdString = record.outputId :=
    CompactKey.toOutputIdString_fromOutpoint o
  refine ⟨key, ?_, ⟨_, Text.lookupOutputsBatch_node .., ?_, ?_⟩, ?_, ?_,
    CompactKey.fromOutpoint_injective⟩
  · show (CompactKey.fromHexTxid o.txid.display o.vout).map CompactKey.toOutputIdString = _
    rw [CompactKey.fromHexTxid_display, Option.map_some, key]
  · rw [List.flatMap_singleton]
    apply List.mem_map_of_mem
    rw [List.mem_filter]
    exact ⟨List.mem_cons_self, decide_eq_true key.symm⟩
  · intro row among
    rw [Text.outputId_of_found among, key]
  · rw [text]
    exact Text.previousOutputId_inputToBoltMap ..
  · intro a b same
    apply text_injective
    rw [← CompactKey.toOutputIdString_fromOutpoint, ← CompactKey.toOutputIdString_fromOutpoint]
    exact same

end ChainGraph
