import Mathlib.Algebra.BigOperators.Group.Multiset.Basic
import ChainGraph.Laws.Linkage
import ChainGraph.Laws.Pending

/-!
# The graph a chain defines

`Image o chain g` says that a graph is the one its chain defines: a node for each block,
transaction, input, output and address, an edge for each relation between them in the chain, and a
simplified layer that follows from the edges of the detailed one. A chain that is ingested in
batches from nothing leaves its image, however it is divided.
-/

namespace ChainGraph

open Foundation Foundation.Store

/-! ## The two layers of a graph -/

namespace Graph

/-- The outputs locked to an address that a transaction spends, once for each input. -/
def spentFrom (g : Graph) (a : Address) (t : Txid) : Multiset OutputId :=
  (g.spends.filter fun e => (t, e.1) ∈ g.hasInput ∧ (e.2, a) ∈ g.lockedTo).map (·.2)

/-- The outputs of a transaction that are locked to an address. -/
def receivedBy (g : Graph) (t : Txid) (a : Address) : Multiset OutputId :=
  (g.hasOutput.filter fun e => e.1 = t ∧ (e.2, a) ∈ g.lockedTo).map (·.2)

/-- What a stored output is worth. -/
def amountAt (g : Graph) (id : OutputId) : ℕ :=
  ((g.outputs.get? id).map (·.amount.toNat)).getD 0

/-- **Both layers agree.** An address performs in a transaction iff an input of it spends an output
locked to the address, with the number and the amounts of these; likewise for what it receives. -/
structure LayersAgree (g : Graph) : Prop where
  performs : ∀ a t, g.performs.Has (a, t) ↔ g.spentFrom a t ≠ 0
  spent : ∀ p ∈ g.performs,
    p.inputCount.toNat = (g.spentFrom p.fromAddress p.toTxid).card ∧
      p.amountSpent.toNat = ((g.spentFrom p.fromAddress p.toTxid).map g.amountAt).sum
  benefitsTo : ∀ t a, g.benefitsTo.Has (t, a) ↔ g.receivedBy t a ≠ 0
  received : ∀ b ∈ g.benefitsTo,
    b.outputCount.toNat = (g.receivedBy b.fromTxid b.toAddress).card ∧
      b.amountReceived.toNat = ((g.receivedBy b.fromTxid b.toAddress).map g.amountAt).sum

end Graph

/-! ## What a chain defines -/

/-- The outputs of the chain's transactions. -/
def outputsUnder (chain : List LocatedBlock) : Denotation := fun txid =>
  (((txsOf chain).find? (·.txid = txid)).map (·.output)).getD []

/-- The output of the chain that a key names. -/
def outputAt (chain : List LocatedBlock) (k : UtxoKey) : Option TxOut :=
  (outputsUnder chain k.txid)[k.vout]?

/-- What the inputs of a transaction spend, in all. -/
def spentValue (chain : List LocatedBlock) (tx : Transaction) : ℕ :=
  ((tx.inputKeys.filterMap (outputAt chain)).map (·.value.toNat)).sum

/-- What the outputs of a transaction are worth, in all. -/
def createdValue (tx : Transaction) : ℕ := (tx.output.map (·.value.toNat)).sum

/-- The node of a transaction with its amounts. -/
def transactionNode (chain : List LocatedBlock) (b : LocatedBlock) (tx : Transaction) :
    TransactionNode where
  txid := tx.txid
  blockHeight := b.height
  blockHash := b.block.blockHash
  timestamp := b.block.header.time
  version := tx.version
  locktime := tx.lockTime
  size := tx.totalSize
  vsize := tx.vsize
  weight := tx.weight
  isCoinbase := tx.isCoinbase
  totalInput := UInt64.ofNat (spentValue chain tx)
  totalOutput := UInt64.ofNat (createdValue tx)
  fee := UInt64.ofNat (spentValue chain tx - createdValue tx)

def inputNode (tx : Transaction) (input : TxIn × ℕ) : InputNode where
  inputId := ⟨tx.txid, input.2⟩
  inputIndex := input.2
  scriptSig := input.1.scriptSig
  sequence := input.1.sequence
  witness := input.1.witness

/-- The places of the inputs or outputs of a transaction, by their number. -/
def placesOf (t : Txid) (n : ℕ) : List OutPoint := (List.range n).map fun i => ⟨t, i⟩

/-- What each input of a transaction spends. -/
def spendsOf (tx : Transaction) : List (InputId × OutputId) :=
  if tx.isCoinbase then [] else tx.input.zipIdx.map fun x => (⟨tx.txid, x.2⟩, x.1.previousOutput)

/-- A chain from height 0: its blocks name their predecessors, its txids differ, and every input
that is not a coinbase's spends an output created before it. -/
structure FromGenesis (chain : List LocatedBlock) : Prop where
  genesis : ∀ b ∈ chain.head?, b.height = 0
  adjacent : chain.IsChain Adjacent
  linked : chain.IsChain Links
  txids : ((txsOf chain).map (·.txid)).Nodup
  spends : SpendsFrom (fun _ => False) (txsOf chain)

/-- The amounts of each transaction sum to less than `2 ^ 63`. -/
structure SmallAmounts (chain : List LocatedBlock) : Prop where
  created : ∀ tx ∈ txsOf chain, createdValue tx < 2 ^ 63
  spent : ∀ tx ∈ txsOf chain, spentValue chain tx < 2 ^ 63

namespace IngestionOrchestrator

variable (o : IngestionOrchestrator)

/-- The address of an output's script. -/
def addressOf (output : TxOut) : Option Address :=
  (extractAddress o.crate output.scriptPubkey o.network).address

def outputNode (tx : Transaction) (output : TxOut × ℕ) : OutputNode where
  outputId := ⟨tx.txid, output.2⟩
  outputIndex := output.2
  amount := output.1.value
  scriptPubKey := output.1.scriptPubkey
  scriptType := (extractAddress o.crate output.1.scriptPubkey o.network).scriptType

/-- The outputs of a transaction that have an address, with it. -/
def locksOf (tx : Transaction) : List (OutputId × Address) :=
  tx.output.zipIdx.filterMap fun x => (o.addressOf x.1).map fun a => (⟨tx.txid, x.2⟩, a)

/-- The detailed layer a chain defines: one node for each element, one edge for each relation. -/
structure Detailed (chain : List LocatedBlock) (g : Graph) : Prop where
  blocks : g.blocks.rows.val = ↑(chain.map fun b => BlockData.fromBlock b.block b.height)
  transactions : g.transactions.rows.val =
    ↑(chain.flatMap fun b => b.block.txdata.map (transactionNode chain b))
  inputs : g.inputs.rows.val =
    ↑((txsOf chain).flatMap fun tx => tx.input.zipIdx.map (inputNode tx))
  outputs : g.outputs.rows.val =
    ↑((txsOf chain).flatMap fun tx => tx.output.zipIdx.map (o.outputNode tx))
  addresses : g.addresses =
    ((txsOf chain).flatMap fun tx => tx.output.filterMap o.addressOf).toFinset
  nextBlock : g.nextBlock =
    ↑(chain.tail.map fun b => (b.block.header.prevBlockhash, b.block.blockHash))
  includedIn : g.includedIn =
    ↑(chain.flatMap fun b => b.block.txdata.map fun tx => (tx.txid, b.block.blockHash))
  hasInput : g.hasInput =
    ↑((txsOf chain).flatMap fun tx => (placesOf tx.txid tx.input.length).map (tx.txid, ·))
  hasOutput : g.hasOutput =
    ↑((txsOf chain).flatMap fun tx => (placesOf tx.txid tx.output.length).map (tx.txid, ·))
  lockedTo : g.lockedTo = ↑((txsOf chain).flatMap o.locksOf)
  spends : g.spends = ↑((txsOf chain).flatMap spendsOf)

/-- **The graph a chain defines.** -/
structure Image (chain : List LocatedBlock) (g : Graph) : Prop extends o.Detailed chain g where
  layers : g.LayersAgree

end IngestionOrchestrator

/-! ## Rows by their transaction -/

section Keyed

variable {α β κ : Type} [DecidableEq κ] {l : List α} {f : α → List β} {key : α → κ}
  {owner : β → κ}

variable (key owner) in
/-- Of rows that name their owner, those of one owner. -/
theorem filter_flatMap_owner (own : ∀ a, ∀ x ∈ f a, owner x = key a) (k : κ) :
    (l.flatMap f).filter (owner · = k) = (l.filter (key · = k)).flatMap f := by
  induction l with
  | nil => rfl
  | cons a l ih =>
    rw [List.flatMap_cons, List.filter_append, ih]
    by_cases same : key a = k
    · have all : (f a).filter (owner · = k) = f a :=
        List.filter_eq_self.mpr fun x hx => decide_eq_true ((own a x hx).trans same)
      rw [all, List.filter_cons_of_pos (by simpa using same), List.flatMap_cons]
    · have none : (f a).filter (owner · = k) = [] :=
        List.filter_eq_nil_iff.mpr fun x hx => by
          rw [decide_eq_true_eq, own a x hx]
          exact same
      rw [none, List.filter_cons_of_neg (by simpa using same), List.nil_append]

theorem filter_keyed (keys : (l.map key).Nodup) {a : α} (mem : a ∈ l) :
    l.filter (key · = key a) = [a] := by
  obtain ⟨pre, post, rfl⟩ := List.append_of_mem mem
  rw [List.map_append, List.map_cons, List.nodup_append, List.nodup_cons] at keys
  obtain ⟨_, ⟨later, _⟩, apart⟩ := keys
  have before : pre.filter (key · = key a) = [] := List.filter_eq_nil_iff.mpr fun b hb => by
    rw [decide_eq_true_eq]
    exact apart _ (List.mem_map_of_mem hb) _ List.mem_cons_self
  have after : post.filter (key · = key a) = [] := List.filter_eq_nil_iff.mpr fun b hb => by
    rw [decide_eq_true_eq]
    exact fun same => later (List.mem_map.mpr ⟨b, hb, same⟩)
  rw [List.filter_append, before, List.filter_cons_of_pos (by simp), after, List.nil_append]

end Keyed

/-! ## Outputs of the chain -/

variable {chain : List LocatedBlock} {o : IngestionOrchestrator}

theorem denotes_outputsUnder (txids : ((txsOf chain).map (·.txid)).Nodup) :
    Denotes (outputsUnder chain) (txsOf chain) := fun tx mem => by
  unfold outputsUnder
  rw [← List.head?_filter, filter_keyed txids mem]
  rfl

theorem outputAt_eq_some (txids : ((txsOf chain).map (·.txid)).Nodup) {k : UtxoKey}
    {output : TxOut} : outputAt chain k = some output ↔
      ∃ tx ∈ txsOf chain, tx.txid = k.txid ∧ tx.output[k.vout]? = some output := by
  constructor
  · intro found
    unfold outputAt outputsUnder at found
    cases under : (txsOf chain).find? (·.txid = k.txid) with
    | none =>
      rw [under] at found
      cases found
    | some tx =>
      rw [under] at found
      have same := List.find?_some under
      exact ⟨tx, List.mem_of_find?_eq_some under, of_decide_eq_true same, found⟩
  · rintro ⟨tx, mem, same, found⟩
    rw [outputAt, ← same, denotes_outputsUnder txids tx mem, found]

namespace IngestionOrchestrator

theorem valueOf_outputsUnder (k : UtxoKey) : o.valueOf (outputsUnder chain) k =
    (outputAt chain k).map fun output =>
      .ofOutput (.fromOutput o.crate output k.txid (asU32 k.vout) o.network) :=
  Option.map_map ..

theorem address_valueOf (k : UtxoKey) :
    (o.valueOf (outputsUnder chain) k).bind (·.address) = (outputAt chain k).bind o.addressOf := by
  rw [valueOf_outputsUnder]
  cases outputAt chain k <;> rfl

theorem amount_valueOf (k : UtxoKey) : (o.valueOf (outputsUnder chain) k).map (·.amount.toNat) =
    (outputAt chain k).map (·.value.toNat) := by
  rw [valueOf_outputsUnder, Option.map_map]
  rfl

/-- The locks of the chain's outputs. -/
theorem mem_locks (txids : ((txsOf chain).map (·.txid)).Nodup) {k : OutputId} {a : Address} :
    (k, a) ∈ (txsOf chain).flatMap o.locksOf ↔
      (o.valueOf (outputsUnder chain) k).bind (·.address) = some a := by
  rw [address_valueOf, Option.bind_eq_some_iff, List.mem_flatMap]
  constructor
  · rintro ⟨tx, mem, lock⟩
    obtain ⟨⟨output, i⟩, at_i, made⟩ := List.mem_filterMap.mp lock
    obtain ⟨b, addressed, same⟩ := Option.map_eq_some_iff.mp made
    cases same
    exact ⟨output, (outputAt_eq_some txids).mpr
      ⟨tx, mem, rfl, List.mk_mem_zipIdx_iff_getElem?.mp at_i⟩, addressed⟩
  · rintro ⟨output, found, addressed⟩
    obtain ⟨tx, mem, same, at_k⟩ := (outputAt_eq_some txids).mp found
    refine ⟨tx, mem, List.mem_filterMap.mpr ⟨(output, k.vout),
      List.mk_mem_zipIdx_iff_getElem?.mpr at_k, ?_⟩⟩
    rw [addressed, same]
    rfl

/-! ## Rows of the chain as nodes -/

theorem inputRows_eq (chain : List LocatedBlock) : (inputRows chain).map InputNode.ofData =
    (txsOf chain).flatMap fun tx => tx.input.zipIdx.map (inputNode tx) := by
  rw [inputRows, txsOf, List.map_flatMap, List.flatMap_assoc]
  refine List.flatMap_congr fun b _ => ?_
  rw [List.map_flatMap]
  refine List.flatMap_congr fun tx _ => ?_
  rw [inputsOf, List.map_map]
  refine List.map_congr_left fun x mem => ?_
  have inside : x.2 < 2 ^ 32 := Nat.lt_trans (by simpa using List.snd_lt_of_mem_zipIdx mem)
    tx.inputs_lt
  show InputNode.ofData (.fromInput x.1 tx.txid (asU32 x.2) b.height) = inputNode tx x
  rw [asU32_of_lt inside]
  rfl

theorem outputRows_eq (o : IngestionOrchestrator) (chain : List LocatedBlock) :
    (o.outputRows chain).map OutputNode.ofData =
      (txsOf chain).flatMap fun tx => tx.output.zipIdx.map (o.outputNode tx) := by
  rw [outputRows, List.map_flatMap]
  refine List.flatMap_congr fun tx _ => ?_
  rw [outputsOf, List.map_map]
  refine List.map_congr_left fun x mem => ?_
  have inside : x.2 < 2 ^ 32 := Nat.lt_trans (by simpa using List.snd_lt_of_mem_zipIdx mem)
    tx.outputs_lt
  show OutputNode.ofData (.fromOutput o.crate x.1 tx.txid (asU32 x.2) o.network) = o.outputNode tx x
  rw [asU32_of_lt inside]
  rfl

theorem locks_eq (o : IngestionOrchestrator) (chain : List LocatedBlock) :
    o.locks chain = (txsOf chain).flatMap o.locksOf := by
  rw [locks, outputRows, List.filterMap_flatMap]
  refine List.flatMap_congr fun tx _ => ?_
  rw [outputsOf, List.filterMap_map, locksOf]
  refine List.filterMap_congr fun x mem => ?_
  have inside : x.2 < 2 ^ 32 := Nat.lt_trans (by simpa using List.snd_lt_of_mem_zipIdx mem)
    tx.outputs_lt
  show (o.addressOf x.1).map (fun a => ((⟨tx.txid, asU32 x.2⟩ : OutputId), a)) = _
  rw [asU32_of_lt inside]

theorem ownedInputs_eq (chain : List LocatedBlock) : ownedInputs chain =
    (txsOf chain).flatMap fun tx => (placesOf tx.txid tx.input.length).map (tx.txid, ·) := by
  have ids : ownedInputs chain =
      ((inputRows chain).map (·.inputId)).map fun id => (id.txid, id) := by
    rw [ownedInputs, List.map_map]
    refine List.map_congr_left fun inp mem => ?_
    obtain ⟨b, _, inBlock⟩ := List.mem_flatMap.mp mem
    obtain ⟨tx, _, inTx⟩ := List.mem_flatMap.mp inBlock
    obtain ⟨_, _, rfl⟩ := List.mem_map.mp inTx
    rfl
  rw [ids, ids_inputRows, List.map_flatMap]
  refine List.flatMap_congr fun tx _ => ?_
  rw [placesOf, List.map_map, List.map_map]
  rfl

theorem ownedOutputs_eq (o : IngestionOrchestrator) (chain : List LocatedBlock) :
    o.ownedOutputs chain =
      (txsOf chain).flatMap fun tx => (placesOf tx.txid tx.output.length).map (tx.txid, ·) := by
  have ids : o.ownedOutputs chain =
      ((o.outputRows chain).map (·.outputId)).map fun id => (id.txid, id) := by
    rw [ownedOutputs, List.map_map]
    refine List.map_congr_left fun out mem => ?_
    obtain ⟨tx, _, inTx⟩ := List.mem_flatMap.mp mem
    obtain ⟨_, _, rfl⟩ := List.mem_map.mp inTx
    rfl
  rw [ids, ids_outputRows, List.map_flatMap]
  refine List.flatMap_congr fun tx _ => ?_
  rw [placesOf, List.map_map, List.map_map]
  rfl

/-- Inputs that are not a coinbase's have a real index if what they spend is in the chain. -/
theorem spendings_eq (txids : ((txsOf chain).map (·.txid)).Nodup)
    (found : ∀ k ∈ spentKeys chain, (outputAt chain k).isSome) :
    spendings chain = (txsOf chain).flatMap spendsOf := by
  rw [spendings, inputRows, List.filter_flatMap, List.map_flatMap, txsOf, List.flatMap_assoc]
  refine List.flatMap_congr fun b hb => ?_
  rw [List.filter_flatMap, List.map_flatMap]
  refine List.flatMap_congr fun tx htx => ?_
  have inChain : tx ∈ txsOf chain := List.mem_flatMap.mpr ⟨b, hb, htx⟩
  unfold spendsOf
  cases coinbase : tx.isCoinbase with
  | true =>
    unfold Transaction.isCoinbase at coinbase
    split at coinbase
    · rename_i only single
      have null : only.previousOutput.vout = maxVout := by
        unfold OutPoint.isNull at coinbase
        exact (of_decide_eq_true coinbase).1
      unfold inputsOf
      rw [single]
      show List.map _ (List.filter _ [InputData.fromInput only tx.txid (asU32 0) b.height]) = _
      rw [List.filter_cons_of_neg (by simp [InputData.fromInput, null])]
      rfl
    · cases coinbase
  | false =>
    have real : ∀ x ∈ inputsOf b.height tx, x.previousOutputIndex ≠ maxVout := fun x mem null => by
      obtain ⟨⟨input, i⟩, at_i, rfl⟩ := List.mem_map.mp mem
      have key : input.previousOutput ∈ tx.inputKeys := by
        unfold Transaction.inputKeys
        rw [coinbase]
        exact List.mem_map.mpr
          ⟨input, List.mem_of_getElem? (List.mk_mem_zipIdx_iff_getElem?.mp at_i), rfl⟩
      obtain ⟨output, hit⟩ := Option.isSome_iff_exists.mp
        (found _ (List.mem_flatMap.mpr ⟨tx, inChain, key⟩))
      obtain ⟨t, _, _, at_k⟩ := (outputAt_eq_some txids).mp hit
      have inside := (List.getElem?_eq_some_iff.mp at_k).1
      have short := t.outputs_lt
      change input.previousOutput.vout = maxVout at null
      rw [null] at inside
      unfold maxVout at inside
      omega
    rw [List.filter_eq_self.mpr fun x hx => decide_eq_true (real x hx)]
    unfold inputsOf
    rw [List.map_map]
    refine List.map_congr_left fun x mem => ?_
    have inside : x.2 < 2 ^ 32 := Nat.lt_trans (by simpa using List.snd_lt_of_mem_zipIdx mem)
      tx.inputs_lt
    show ((⟨tx.txid, asU32 x.2⟩ : InputId), x.1.previousOutput) = _
    rw [asU32_of_lt inside]

/-- The amounts of a transaction are those of the chain. -/
theorem ofData_priceTransaction (b : LocatedBlock) {tx : Transaction}
    (created : createdValue tx < 2 ^ 63) (spent : spentValue chain tx < 2 ^ 63) :
    TransactionNode.ofData (priceTransaction (o.valueOf (outputsUnder chain)) b.block b.height tx) =
      transactionNode chain b tx := by
  have input : sumAmounts ((resolvedInputs (o.valueOf (outputsUnder chain)) tx).map (·.amount)) =
      UInt64.ofNat (spentValue chain tx) := by
    rw [sumAmounts_eq, List.map_map]
    refine congrArg UInt64.ofNat ?_
    show ((tx.inputKeys.filterMap _).map fun v : CachedOutput => v.amount.toNat).sum = _
    rw [spentValue, sum_filterMap, sum_filterMap]
    simp only [amount_valueOf]
  have output : tx.totalOutput = UInt64.ofNat (createdValue tx) := by
    rw [Transaction.totalOutput, sumAmounts_eq, List.map_map]
    rfl
  have fee : saturatingSub (UInt64.ofNat (spentValue chain tx)) (UInt64.ofNat (createdValue tx)) =
      UInt64.ofNat (spentValue chain tx - createdValue tx) := by
    rw [← UInt64.toNat_inj, toNat_saturatingSub, UInt64.toNat_ofNat', UInt64.toNat_ofNat',
      UInt64.toNat_ofNat', Nat.mod_eq_of_lt (by omega), Nat.mod_eq_of_lt (by omega),
      Nat.mod_eq_of_lt (by omega)]
  unfold priceTransaction TransactionNode.ofData transactionNode
  rw [input, output]
  simp only [Option.getD_some, fee]
  rfl

/-! ## The simplified layer of the chain -/

theorem mem_performsRows {res : Found} {p : PerformsData} : p ∈ performsRows res chain ↔
    ∃ tx ∈ txsOf chain, tx.txid = p.toTxid ∧
      Entry res tx.inputKeys p.fromAddress p.inputCount p.amountSpent := by
  unfold performsRows
  rw [List.mem_flatMap]
  refine exists_congr fun tx => and_congr_right fun _ => ?_
  rw [← mem_tally_addressed]
  constructor
  · intro mem
    obtain ⟨⟨a, n, s⟩, entry, rfl⟩ := List.mem_map.mp mem
    exact ⟨rfl, entry⟩
  · rintro ⟨same, entry⟩
    refine List.mem_map.mpr ⟨_, entry, ?_⟩
    show PerformsData.mk p.fromAddress tx.txid p.inputCount p.amountSpent = p
    rw [same]

/-- The outputs of a transaction resolve to themselves. -/
theorem filterMap_placesOf (txids : ((txsOf chain).map (·.txid)).Nodup) {tx : Transaction}
    (mem : tx ∈ txsOf chain) :
    (placesOf tx.txid tx.output.length).filterMap (o.valueOf (outputsUnder chain)) =
      (o.outputsOf tx).map .ofOutput := by
  rw [placesOf, ← ids_outputsOf o tx, List.filterMap_map, ← List.filterMap_eq_map]
  refine List.filterMap_congr fun row inTx => ?_
  show (o.rowOf (outputsUnder chain) row.outputId).map _ = _
  rw [rowOf_outputId (denotes_outputsUnder txids) (List.mem_flatMap.mpr ⟨tx, mem, inTx⟩)]
  rfl

theorem mem_benefitsRows (txids : ((txsOf chain).map (·.txid)).Nodup) {b : BenefitsToData} :
    b ∈ o.benefitsRows chain ↔ ∃ tx ∈ txsOf chain, tx.txid = b.fromTxid ∧
      Entry (o.valueOf (outputsUnder chain)) (placesOf tx.txid tx.output.length) b.toAddress
        b.outputCount b.amountReceived := by
  unfold benefitsRows
  rw [List.mem_flatMap]
  refine exists_congr fun tx => and_congr_right fun inChain => ?_
  rw [← mem_tally_addressed, addressed, filterMap_placesOf txids inChain, List.filterMap_map]
  constructor
  · intro mem
    obtain ⟨⟨a, n, s⟩, entry, rfl⟩ := List.mem_map.mp mem
    exact ⟨rfl, entry⟩
  · rintro ⟨same, entry⟩
    refine List.mem_map.mpr ⟨_, entry, ?_⟩
    show BenefitsToData.mk tx.txid b.toAddress b.outputCount b.amountReceived = b
    rw [same]

/-- An address with an entry is the address of an output of the chain. -/
theorem address_of_entry (txids : ((txsOf chain).map (·.txid)).Nodup) {keys : List UtxoKey}
    {a : Address} {n : UInt32} {s : UInt64}
    (entry : Entry (o.valueOf (outputsUnder chain)) keys a n s) :
    ∃ tx ∈ txsOf chain, ∃ output ∈ tx.output, o.addressOf output = some a := by
  obtain ⟨k, mem⟩ := List.exists_mem_of_ne_nil _ entry.nonempty
  have lock := of_decide_eq_true (List.mem_filter.mp mem).2
  rw [address_valueOf, Option.bind_eq_some_iff] at lock
  obtain ⟨output, found, address⟩ := lock
  obtain ⟨tx, inChain, _, at_k⟩ := (outputAt_eq_some txids).mp found
  exact ⟨tx, inChain, output, List.mem_of_getElem? at_k, address⟩

/-- The simplified layer mentions no other addresses than the outputs have. -/
theorem mentioned_eq (txids : ((txsOf chain).map (·.txid)).Nodup) :
    o.mentioned (o.valueOf (outputsUnder chain)) chain =
      ((txsOf chain).flatMap fun tx => tx.output.filterMap o.addressOf).toFinset := by
  have own : (o.outputRows chain).filterMap (·.address) =
      (txsOf chain).flatMap fun tx => tx.output.filterMap o.addressOf := by
    rw [outputRows, List.filterMap_flatMap]
    refine List.flatMap_congr fun tx _ => ?_
    rw [outputsOf, List.filterMap_map]
    calc tx.output.zipIdx.filterMap (fun x => o.addressOf x.1)
        = (tx.output.zipIdx.map Prod.fst).filterMap o.addressOf := by rw [List.filterMap_map]; rfl
      _ = tx.output.filterMap o.addressOf := by rw [List.zipIdx_map_fst]
  rw [mentioned, own]
  refine Finset.union_eq_left.mpr fun a mem => ?_
  have brought : ∃ tx ∈ txsOf chain, ∃ output ∈ tx.output, o.addressOf output = some a := by
    rcases Finset.mem_union.mp mem with from_p | to_b
    · obtain ⟨p, hp, rfl⟩ := List.mem_map.mp (List.mem_toFinset.mp from_p)
      obtain ⟨_, _, _, entry⟩ := mem_performsRows.mp hp
      exact address_of_entry txids entry
    · obtain ⟨b, hb, rfl⟩ := List.mem_map.mp (List.mem_toFinset.mp to_b)
      obtain ⟨_, _, _, entry⟩ := (mem_benefitsRows txids).mp hb
      exact address_of_entry txids entry
  obtain ⟨tx, inChain, output, inTx, address⟩ := brought
  exact List.mem_toFinset.mpr (List.mem_flatMap.mpr
    ⟨tx, inChain, List.mem_filterMap.mpr ⟨output, inTx, address⟩⟩)

/-! ## The layers agree -/

section Layers

variable {g : Graph} {a : Address} {t : Txid}

/-- The outputs on the paths from a transaction to an address, where each transaction leads to the
outputs `keysOf` it. -/
def onPaths (res : Found) (chain : List LocatedBlock) (keysOf : Transaction → List UtxoKey)
    (a : Address) (t : Txid) : List UtxoKey :=
  lockedKeys res a (((txsOf chain).filter (·.txid = t)).flatMap keysOf)

theorem onPaths_ne_nil {res : Found} {keysOf : Transaction → List UtxoKey} :
    onPaths res chain keysOf a t ≠ [] ↔
      ∃ tx ∈ txsOf chain, tx.txid = t ∧ lockedKeys res a (keysOf tx) ≠ [] := by
  simp only [onPaths, lockedKeys, ne_eq, List.filter_eq_nil_iff, List.mem_flatMap, List.mem_filter,
    decide_eq_true_eq, not_forall, not_not]
  constructor
  · rintro ⟨k, ⟨tx, ⟨inChain, same⟩, mem⟩, lock⟩
    exact ⟨tx, inChain, same, k, mem, lock⟩
  · rintro ⟨tx, inChain, same, k, mem, lock⟩
    exact ⟨k, ⟨tx, ⟨inChain, same⟩, mem⟩, lock⟩

theorem onPaths_txid {res : Found} {keysOf : Transaction → List UtxoKey}
    (txids : ((txsOf chain).map (·.txid)).Nodup) {tx : Transaction} (mem : tx ∈ txsOf chain) :
    onPaths res chain keysOf a tx.txid = lockedKeys res a (keysOf tx) := by
  rw [onPaths, filter_keyed txids mem, List.flatMap_singleton]

/-- An entry exists iff there is a path. -/
theorem exists_entry {res : Found} {keysOf : Transaction → List UtxoKey} :
    (∃ tx ∈ txsOf chain, tx.txid = t ∧ ∃ n s, Entry res (keysOf tx) a n s) ↔
      onPaths res chain keysOf a t ≠ [] := by
  rw [onPaths_ne_nil]
  refine exists_congr fun tx => and_congr_right fun _ => and_congr_right fun _ => ?_
  exact ⟨fun ⟨_, _, entry⟩ => entry.nonempty, fun nonempty => ⟨_, _, nonempty, rfl, rfl⟩⟩

theorem map_snd_spendsOf (tx : Transaction) : (spendsOf tx).map (·.2) = tx.inputKeys := by
  unfold spendsOf Transaction.inputKeys
  cases tx.isCoinbase with
  | true => rfl
  | false =>
    calc (tx.input.zipIdx.map fun x => ((⟨tx.txid, x.2⟩ : InputId), x.1.previousOutput)).map (·.2)
        = (tx.input.zipIdx.map Prod.fst).map (·.previousOutput) := by
          rw [List.map_map, List.map_map]; rfl
      _ = tx.input.map (·.previousOutput) := by rw [List.zipIdx_map_fst]

/-- An input that spends something belongs to its transaction. -/
theorem place_of_mem_spendsOf {tx : Transaction} {e : InputId × OutputId} (mem : e ∈ spendsOf tx) :
    e.1.txid = tx.txid ∧ e.1 ∈ placesOf tx.txid tx.input.length := by
  unfold spendsOf at mem
  split at mem
  · cases mem
  · obtain ⟨x, at_x, rfl⟩ := List.mem_map.mp mem
    exact ⟨rfl, List.mem_map.mpr
      ⟨x.2, List.mem_range.mpr (by simpa using List.snd_lt_of_mem_zipIdx at_x), rfl⟩⟩

theorem Detailed.spentFrom (h : o.Detailed chain g) (txids : ((txsOf chain).map (·.txid)).Nodup) :
    g.spentFrom a t =
      ↑(onPaths (o.valueOf (outputsUnder chain)) chain Transaction.inputKeys a t) := by
  have paths : ((txsOf chain).flatMap spendsOf).filter (fun e => (t, e.1) ∈ g.hasInput ∧
      (e.2, a) ∈ g.lockedTo) = (((txsOf chain).flatMap spendsOf).filter (·.1.txid = t)).filter
        fun e => (o.valueOf (outputsUnder chain) e.2).bind (·.address) = some a := by
    rw [List.filter_filter]
    refine List.filter_congr fun e mem => ?_
    obtain ⟨tx, inChain, inTx⟩ := List.mem_flatMap.mp mem
    obtain ⟨owner, place⟩ := place_of_mem_spendsOf inTx
    refine (decide_eq_decide.mpr ?_).trans (Bool.decide_and _ _)
    rw [h.lockedTo, h.hasInput, Multiset.mem_coe, Multiset.mem_coe, mem_locks txids, and_comm]
    refine and_congr_right fun _ => ⟨fun has => ?_, fun same => ?_⟩
    · obtain ⟨tx', _, made⟩ := List.mem_flatMap.mp has
      obtain ⟨k, inPlaces, same⟩ := List.mem_map.mp made
      obtain ⟨i, _, rfl⟩ := List.mem_map.mp inPlaces
      obtain ⟨rfl, here⟩ := Prod.mk.inj same
      rw [← here]
    · exact List.mem_flatMap.mpr ⟨tx, inChain, List.mem_map.mpr
        ⟨e.1, place, by rw [← same, owner]⟩⟩
  rw [Graph.spentFrom, h.spends, Multiset.filter_coe, Multiset.map_coe, paths,
    filter_flatMap_owner Transaction.txid (fun e : InputId × OutputId => e.1.txid)
      fun tx e mem => (place_of_mem_spendsOf mem).1]
  refine congrArg _ ?_
  rw [onPaths, lockedKeys, ← List.flatMap_congr fun tx _ => map_snd_spendsOf tx, ← List.map_flatMap,
    List.filter_map]
  rfl

theorem Detailed.receivedBy (h : o.Detailed chain g)
    (txids : ((txsOf chain).map (·.txid)).Nodup) :
    g.receivedBy t a = ↑(onPaths (o.valueOf (outputsUnder chain)) chain
      (fun tx => placesOf tx.txid tx.output.length) a t) := by
  have paths : ((txsOf chain).flatMap fun tx =>
      (placesOf tx.txid tx.output.length).map (tx.txid, ·)).filter (fun e => e.1 = t ∧
        (e.2, a) ∈ g.lockedTo) = (((txsOf chain).flatMap fun tx =>
          (placesOf tx.txid tx.output.length).map (tx.txid, ·)).filter (·.1 = t)).filter
            fun e => (o.valueOf (outputsUnder chain) e.2).bind (·.address) = some a := by
    rw [List.filter_filter]
    refine List.filter_congr fun e _ => ?_
    refine (decide_eq_decide.mpr ?_).trans (Bool.decide_and _ _)
    rw [h.lockedTo, Multiset.mem_coe, mem_locks txids, and_comm]
  rw [Graph.receivedBy, h.hasOutput, Multiset.filter_coe, Multiset.map_coe, paths,
    filter_flatMap_owner Transaction.txid Prod.fst fun tx e mem => by
      obtain ⟨_, _, rfl⟩ := List.mem_map.mp mem
      rfl]
  refine congrArg _ ?_
  have keys : ∀ tx : Transaction, ((placesOf tx.txid tx.output.length).map (tx.txid, ·)).map (·.2) =
      placesOf tx.txid tx.output.length := fun tx => by
    rw [List.map_map]
    exact List.map_id _
  rw [onPaths, lockedKeys, ← List.flatMap_congr fun tx _ => keys tx, ← List.map_flatMap,
    List.filter_map]
  rfl

/-- A stored output is worth what the chain says. -/
theorem Detailed.amountAt (h : o.Detailed chain g) (txids : ((txsOf chain).map (·.txid)).Nodup)
    (k : OutputId) : g.amountAt k =
      ((o.valueOf (outputsUnder chain) k).map (·.amount.toNat)).getD 0 := by
  have members : ∀ n, n ∈ g.outputs ↔ n ∈ (txsOf chain).flatMap fun tx =>
      tx.output.zipIdx.map (o.outputNode tx) := fun n => by
    show n ∈ g.outputs.rows.val ↔ _
    rw [h.outputs, Multiset.mem_coe]
  rw [amount_valueOf, Graph.amountAt]
  cases found : outputAt chain k with
  | some output =>
    obtain ⟨tx, inChain, same, at_k⟩ := (outputAt_eq_some txids).mp found
    have stored : g.outputs.get? k = some (o.outputNode tx (output, k.vout)) :=
      Table.get?_eq_some.mpr ⟨(members _).mpr (List.mem_flatMap.mpr ⟨tx, inChain,
        List.mem_map.mpr ⟨_, List.mk_mem_zipIdx_iff_getElem?.mpr at_k, rfl⟩⟩), by
          rw [outputNode, same]⟩
    rw [stored]
    rfl
  | none =>
    have absent : g.outputs.get? k = none := by
      rw [Table.get?_eq_none]
      rintro ⟨n, mem, rfl⟩
      obtain ⟨tx, inChain, inTx⟩ := List.mem_flatMap.mp ((members n).mp mem)
      obtain ⟨⟨output, i⟩, at_i, rfl⟩ := List.mem_map.mp inTx
      rw [(outputAt_eq_some txids).mpr
        ⟨tx, inChain, rfl, List.mk_mem_zipIdx_iff_getElem?.mp at_i⟩] at found
      cases found
    rw [absent]
    rfl

/-- **The layers agree** in the detailed layer of a chain with the simplified one of its rows. -/
theorem Detailed.layersAgree (h : o.Detailed chain g) (valid : FromGenesis chain)
    (amounts : SmallAmounts chain)
    (performs : ∀ p, p ∈ g.performs ↔ p ∈ performsRows (o.valueOf (outputsUnder chain)) chain)
    (benefits : ∀ b, b ∈ g.benefitsTo ↔ b ∈ o.benefitsRows chain) : g.LayersAgree where
  performs a t := by
    rw [h.spentFrom valid.txids, ne_eq, Multiset.coe_eq_zero, ← ne_eq, ← exists_entry]
    constructor
    · rintro ⟨p, mem, ends⟩
      obtain ⟨rfl, rfl⟩ := Prod.mk.inj ends
      obtain ⟨tx, inChain, same, entry⟩ := mem_performsRows.mp ((performs p).mp mem)
      exact ⟨tx, inChain, same, _, _, entry⟩
    · rintro ⟨tx, inChain, same, n, s, entry⟩
      exact ⟨⟨a, t, n, s⟩, (performs _).mpr (mem_performsRows.mpr ⟨tx, inChain, same, entry⟩), rfl⟩
  spent p mem := by
    obtain ⟨tx, inChain, same, entry⟩ := mem_performsRows.mp ((performs p).mp mem)
    have small : ((tx.inputKeys.filterMap (o.valueOf (outputsUnder chain))).map
        (·.amount.toNat)).sum = spentValue chain tx := by
      rw [spentValue, sum_filterMap, sum_filterMap]
      simp only [amount_valueOf]
    have short : tx.inputKeys.length < 2 ^ 32 := by
      unfold Transaction.inputKeys
      split
      · exact Nat.two_pow_pos 32
      · rw [List.length_map]
        exact tx.inputs_lt
    obtain ⟨count, sum⟩ := entry.exact short (small ▸ amounts.spent tx inChain)
    rw [h.spentFrom valid.txids, ← same, onPaths_txid valid.txids inChain, Multiset.coe_card,
      Multiset.map_coe, Multiset.sum_coe, funext (h.amountAt valid.txids)]
    exact ⟨count, sum⟩
  benefitsTo t a := by
    rw [h.receivedBy valid.txids, ne_eq, Multiset.coe_eq_zero, ← ne_eq, ← exists_entry]
    constructor
    · rintro ⟨b, mem, ends⟩
      obtain ⟨rfl, rfl⟩ := Prod.mk.inj ends
      obtain ⟨tx, inChain, same, entry⟩ :=
        (mem_benefitsRows valid.txids).mp ((benefits b).mp mem)
      exact ⟨tx, inChain, same, _, _, entry⟩
    · rintro ⟨tx, inChain, same, n, s, entry⟩
      exact ⟨⟨t, a, n, s⟩, (benefits _).mpr
        ((mem_benefitsRows valid.txids).mpr ⟨tx, inChain, same, entry⟩), rfl⟩
  received b mem := by
    obtain ⟨tx, inChain, same, entry⟩ := (mem_benefitsRows valid.txids).mp ((benefits b).mp mem)
    have small : (((placesOf tx.txid tx.output.length).filterMap
        (o.valueOf (outputsUnder chain))).map (·.amount.toNat)).sum = createdValue tx := by
      rw [filterMap_placesOf valid.txids inChain, outputsOf, List.map_map, List.map_map]
      calc (tx.output.zipIdx.map fun x => x.1.value.toNat).sum
          = ((tx.output.zipIdx.map Prod.fst).map (·.value.toNat)).sum := by rw [List.map_map]; rfl
        _ = createdValue tx := by rw [List.zipIdx_map_fst, createdValue]
    have short : (placesOf tx.txid tx.output.length).length < 2 ^ 32 := by
      rw [placesOf, List.length_map, List.length_range]
      exact tx.outputs_lt
    obtain ⟨count, sum⟩ := entry.exact short (small ▸ amounts.created tx inChain)
    rw [h.receivedBy valid.txids, ← same, onPaths_txid valid.txids inChain, Multiset.coe_card,
      Multiset.map_coe, Multiset.sum_coe, funext (h.amountAt valid.txids)]
    exact ⟨count, sum⟩

end Layers

/-! ## From nothing -/

theorem found_of_fromGenesis (valid : FromGenesis chain) {k : UtxoKey} (mem : k ∈ spentKeys chain) :
    (outputAt chain k).isSome := by
  obtain ⟨tx, inChain, input⟩ := List.mem_flatMap.mp mem
  obtain ⟨before, after, split⟩ := List.append_of_mem inChain
  rcases valid.spends before tx after split k input with none | ⟨t, earlier, same, inside⟩
  · exact none.elim
  · refine Option.isSome_iff_exists.mpr ⟨t.output[k.vout], (outputAt_eq_some valid.txids).mpr
      ⟨t, ?_, same, List.getElem?_eq_getElem inside⟩⟩
    rw [split]
    exact List.mem_append_left _ earlier

theorem newRows_empty (txids : ((txsOf chain).map (·.txid)).Nodup) : o.NewRows chain .empty :=
  newRows_of_txids txids (fun _ _ => Table.not_has_empty _) (fun _ _ => Table.not_has_empty _)
    fun _ _ => Table.not_has_empty _

/-- The links of a chain from height 0 are those its blocks name. -/
theorem prevLinks_of_fromGenesis {g : Graph} (valid : FromGenesis chain)
    (stored : ∀ b ∈ chain, BlockData.fromBlock b.block b.height ∈ g.blocks) :
    (blockRows chain).filterMap g.prevLink =
      chain.tail.map fun b => (b.block.header.prevBlockhash, b.block.blockHash) := by
  cases chain with
  | nil => rfl
  | cons first rest =>
    have zero : first.height = 0 := valid.genesis first rfl
    have none : g.prevLink (.fromBlock first.block first.height) = none := by
      unfold Graph.prevLink
      exact if_neg (by simp [BlockData.fromBlock, zero])
    rw [blockRows, List.map_cons, List.filterMap_cons_none none, List.filterMap_map, List.tail_cons,
      ← List.filterMap_eq_map]
    refine List.filterMap_congr fun b mem => ?_
    have above : first.height < b.height :=
      (List.pairwise_cons.mp (rising_of_adjacent valid.adjacent)).1 b mem
    rcases head_or_pred (isChain_and valid.adjacent valid.linked) (List.mem_cons_of_mem first mem)
      with head | ⟨a, inChain, next, link⟩
    · cases head
      exact absurd above (Nat.lt_irrefl _)
    · have here : g.blockAt (b.height - 1) = some (.fromBlock a.block a.height) := by
        have : b.height = a.height + 1 := next
        refine Graph.blockAt_eq_some.mpr ⟨stored a inChain, ?_⟩
        show a.height = b.height - 1
        omega
      show g.prevLink (.fromBlock b.block b.height) = some _
      unfold Graph.prevLink
      rw [if_pos (show 0 < (BlockData.fromBlock b.block b.height).height from
        Nat.zero_lt_of_lt above)]
      show (g.blockAt (b.height - 1)).map _ = _
      rw [here]
      show some (a.block.blockHash, b.block.blockHash) = _
      rw [← show b.block.header.prevBlockhash = a.block.blockHash from link]

/-- **Image.** What has grown from nothing by a chain is the graph the chain defines. -/
theorem image_of_grown {g : Graph} (valid : FromGenesis chain) (amounts : SmallAmounts chain)
    (new : Graph.empty.NewBlocks (blockRows chain))
    (grown : o.Grown (o.valueOf (outputsUnder chain)) .empty chain g) : o.Image chain g := by
  have rows := newRows_empty (o := o) valid.txids
  have detailed : o.Detailed chain g := {
    blocks := by
      rw [grown.blocks]
      exact Table.val_foldl_upsert_empty new.hashes
    transactions := by
      have nodes : (transactionRows (o.valueOf (outputsUnder chain)) chain).map .ofData =
          chain.flatMap fun b => b.block.txdata.map (transactionNode chain b) := by
        rw [transactionRows, List.map_flatMap]
        refine List.flatMap_congr fun b hb => ?_
        rw [List.map_map]
        refine List.map_congr_left fun tx htx => ?_
        have inChain : tx ∈ txsOf chain := List.mem_flatMap.mpr ⟨b, hb, htx⟩
        exact ofData_priceTransaction b (amounts.created tx inChain) (amounts.spent tx inChain)
      rw [grown.transactions, ← nodes]
      refine Table.val_foldl_upsert_empty ?_
      rw [List.map_map]
      exact (map_txid_transactionRows _ chain).symm ▸ valid.txids
    inputs := by
      rw [grown.inputs, ← inputRows_eq]
      exact Table.val_foldl_upsert_empty (by rw [List.map_map]; exact rows.inputIds)
    outputs := by
      rw [grown.outputs, ← outputRows_eq]
      exact Table.val_foldl_upsert_empty (by rw [List.map_map]; exact rows.outputIds)
    addresses := by
      rw [grown.addresses, mentioned_eq valid.txids]
      exact Finset.empty_union _
    nextBlock := by
      rw [grown.nextBlock, prevLinks_of_fromGenesis valid fun b mem => ?_]
      · exact zero_add _
      · rw [grown.blocks]
        exact (Table.mem_foldl_upsert_new new.hashes new.free).mpr
          (Or.inl (List.mem_map.mpr ⟨b, mem, rfl⟩))
    includedIn := grown.includedIn.trans (zero_add _)
    hasInput := by
      rw [grown.hasInput, ← ownedInputs_eq]
      exact zero_add _
    hasOutput := by
      rw [grown.hasOutput, ← ownedOutputs_eq]
      exact zero_add _
    lockedTo := by
      rw [grown.lockedTo, ← locks_eq]
      exact zero_add _
    spends := by
      rw [grown.spends, ← spendings_eq valid.txids fun k mem => found_of_fromGenesis valid mem]
      exact zero_add _ }
  refine ⟨detailed, detailed.layersAgree valid amounts (fun p => ?_) fun b => ?_⟩
  · rw [grown.performs]
    refine (Table.mem_foldl_upsert_new (t := ∅) (nodup_performsRows _ valid.txids)
      fun _ _ => Table.not_has_empty _).trans (or_iff_left (Table.not_mem_empty _))
  · rw [grown.benefitsTo]
    exact (Table.mem_foldl_upsert_new (t := ∅) (nodup_benefitsRows o valid.txids)
      fun _ _ => Table.not_has_empty _).trans (or_iff_left (Table.not_mem_empty _))

/-- The state before a chain is ingested from nothing. -/
theorem ready_of_fromGenesis {c : UtxoCache} (valid : FromGenesis chain) :
    o.Ready (outputsUnder chain) ⟨⟨.empty, none⟩, c⟩ chain where
  free := rfl
  faithful := faithful_empty
  sound := sound_empty
  denoted := denotes_outputsUnder valid.txids
  rows := newRows_empty valid.txids
  spends before tx after split k input :=
    (valid.spends before tx after split k input).imp_left False.elim
  ascending := rising_of_adjacent valid.adjacent

/-- Batches of a chain that succeed, each with room in the cache. -/
theorem batches_of_fromGenesis {batches : List (List LocatedBlock)} {c : UtxoCache}
    {w : World neo4j UtxoCache} (valid : FromGenesis batches.flatten)
    (empty : ∀ k, c.peek k = none) (room : ∀ blocks ∈ batches, o.Roomy c.cap blocks)
    (ran : (o.ingestBatches batches).run World.handle ⟨⟨.empty, none⟩, c⟩ = (.ok (), w)) :
    o.Pending (outputsUnder batches.flatten) w [] ∧
      o.Advanced (outputsUnder batches.flatten) ⟨⟨.empty, none⟩, c⟩ batches.flatten w := by
  have pending : o.Pending (outputsUnder batches.flatten) ⟨⟨.empty, none⟩, c⟩
      (batches.flatten ++ []) := by
    rw [List.append_nil]
    refine ⟨ready_of_fromGenesis valid, fun k v present => ?_⟩
    rw [empty k] at present
    cases present
  exact pending.batches room ran

/-- **The stored graph is the image of the chain**, however it is divided into batches, and these
into chunks and sub-batches, if all calls succeed and the cache has room for each chunk. -/
theorem batches_image {batches : List (List LocatedBlock)} {c : UtxoCache}
    (valid : FromGenesis batches.flatten) (amounts : SmallAmounts batches.flatten)
    (empty : ∀ k, c.peek k = none)
    (room : ∀ blocks ∈ batches, o.Roomy c.cap blocks)
    (ok : ((o.ingestBatches batches).run World.handle ⟨⟨.empty, none⟩, c⟩).1.isOk) :
    o.Image batches.flatten
      ((o.ingestBatches batches).run World.handle ⟨⟨.empty, none⟩, c⟩).2.store.committed := by
  obtain ⟨_, ran⟩ := Prog.run_eq_ok_of_isOk ok
  obtain ⟨_, advanced⟩ := batches_of_fromGenesis valid empty room ran
  exact image_of_grown valid amounts advanced.new advanced.grown

end IngestionOrchestrator

/-! ## The small chain -/

theorem spendsFrom_nil (stored : UtxoKey → Prop) : SpendsFrom stored [] :=
  fun before _ _ split => by simp at split

theorem spendsFrom_cons {stored : UtxoKey → Prop} {tx : Transaction} {txs : List Transaction}
    (first : ∀ k ∈ tx.inputKeys, stored k)
    (rest : SpendsFrom (fun k => stored k ∨ tx.txid = k.txid ∧ k.vout < tx.output.length) txs) :
    SpendsFrom stored (tx :: txs) := by
  intro before tx' after split k input
  cases before with
  | nil =>
    obtain ⟨rfl, _⟩ := List.cons.inj split
    exact Or.inl (first k input)
  | cons t before =>
    obtain ⟨rfl, later⟩ := List.cons.inj split
    rcases rest before tx' after later k input with (elsewhere | here) | ⟨t, mem, same⟩
    · exact Or.inl elsewhere
    · exact Or.inr ⟨tx, List.mem_cons_self, here⟩
    · exact Or.inr ⟨t, List.mem_cons_of_mem _ mem, same⟩

/-- The small chain starts at height 0. -/
theorem fromGenesis_sample : FromGenesis [Sample.first, Sample.second] where
  genesis b head := by
    cases head
    rfl
  adjacent := by simp [List.isChain_cons_cons, Adjacent, Sample.first, Sample.second, Sample.block]
  linked := by decide
  txids := by decide
  spends := by
    refine spendsFrom_cons (by decide) (spendsFrom_cons (by decide) (spendsFrom_cons ?_
      (spendsFrom_cons ?_ (spendsFrom_nil _)))) <;>
    · intro k input
      cases List.mem_singleton.mp input
      simp [Sample.coinbase, Sample.spend, UtxoKey.fromOutpoint]

/-- The small chain in two batches of a block each has room. -/
theorem roomy_sample : ∀ blocks ∈ [[Sample.first], [Sample.second]],
    (Sample.orchestrator 1000000).Roomy (UtxoCache.new 64).cap blocks := by
  have small : ∀ blocks ∈ [[Sample.first], [Sample.second]],
      ∀ chunk ∈ (Sample.orchestrator 1000000).adaptiveChunks blocks,
        ((Sample.orchestrator 1000000).outputRows chunk).length ≤ 4 := by
    decide +kernel
  exact fun blocks mem chunk inBatch k =>
    (List.length_filter_le ..).trans (small blocks mem chunk inBatch)

theorem batches_image_sample :
    let o := Sample.orchestrator 1000000
    let batches := [[Sample.first], [Sample.second]]
    o.Image batches.flatten ((o.ingestBatches batches).run World.handle
      ⟨⟨.empty, none⟩, .new 64⟩).2.store.committed :=
  IngestionOrchestrator.batches_image fromGenesis_sample ⟨by decide, by decide⟩
    (UtxoCache.peek_new 64) roomy_sample (by decide +kernel)

end ChainGraph
