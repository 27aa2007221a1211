import ChainGraph.Laws.Sound
import ChainGraph.Laws.Tally

/-!
# Graphs that grow by a list of blocks

`Grown o res g chain g'` says what it is to have added blocks to a graph: every table holds the new
rows, every bag of relationships the new relationships, once each. It says nothing of chunks,
batches or the order of phases. A block that is ingested, and a chunk that is committed, grow the
graph by their blocks if these are new; growing composes, and the blocks determine the result.
`Merged` is the same where outputs and inputs of the blocks may be left by an attempt that failed.
-/

namespace ChainGraph

open Foundation Foundation.Store

/-! ## What blocks bring -/

def inclusions (chain : List LocatedBlock) : List (Txid × BlockHash) :=
  chain.flatMap fun b => b.block.txdata.map fun tx => (tx.txid, b.block.blockHash)

def ownedInputs (chain : List LocatedBlock) : List (Txid × InputId) :=
  (inputRows chain).map fun inp => (inp.txid, inp.inputId)

/-- What is spent, except by the input of a coinbase. -/
def spendings (chain : List LocatedBlock) : List (InputId × OutputId) :=
  ((inputRows chain).filter fun inp => inp.previousOutputIndex ≠ maxVout).map fun inp =>
    (inp.inputId, inp.previousOutputId)

/-- The graph with other locks and spendings. -/
def Graph.withCoins (g : Graph) (lockedTo : Multiset (OutputId × Address))
    (spends : Multiset (InputId × OutputId)) : Graph :=
  { g with lockedTo := lockedTo, spends := spends }

namespace IngestionOrchestrator

def ownedOutputs (o : IngestionOrchestrator) (chain : List LocatedBlock) :
    List (Txid × OutputId) :=
  (o.outputRows chain).map fun out => (out.txid, out.outputId)

def locks (o : IngestionOrchestrator) (chain : List LocatedBlock) : List (OutputId × Address) :=
  (o.outputRows chain).filterMap fun out => out.address.map fun a => (out.outputId, a)

/-- The addresses of outputs and of the simplified layer. -/
def mentioned (o : IngestionOrchestrator) (res : Found) (chain : List LocatedBlock) :
    Finset Address :=
  ((o.outputRows chain).filterMap (·.address)).toFinset ∪
    (((performsRows res chain).map (·.fromAddress)).toFinset ∪
      ((o.benefitsRows chain).map (·.toAddress)).toFinset)

/-- **Growth** of a graph by a list of blocks, whose inputs resolve to `res`. -/
structure Grown (o : IngestionOrchestrator) (res : Found) (g : Graph) (chain : List LocatedBlock)
    (g' : Graph) : Prop where
  blocks : g'.blocks = (blockRows chain).foldl Table.upsert g.blocks
  nextBlock : g'.nextBlock = g.nextBlock + ↑((blockRows chain).filterMap g'.prevLink)
  transactions : g'.transactions = putTransactions res chain g.transactions
  outputs : g'.outputs = o.putOutputNodes chain g.outputs
  inputs : g'.inputs = ((inputRows chain).map InputNode.ofData).foldl Table.upsert g.inputs
  addresses : g'.addresses = g.addresses ∪ o.mentioned res chain
  includedIn : g'.includedIn = g.includedIn + ↑(inclusions chain)
  hasInput : g'.hasInput = g.hasInput + ↑(ownedInputs chain)
  hasOutput : g'.hasOutput = g.hasOutput + ↑(o.ownedOutputs chain)
  lockedTo : g'.lockedTo = g.lockedTo + ↑(o.locks chain)
  spends : g'.spends = g.spends + ↑(spendings chain)
  performs : g'.performs = (performsRows res chain).foldl Table.upsert g.performs
  benefitsTo : g'.benefitsTo = (o.benefitsRows chain).foldl Table.upsert g.benefitsTo

/-- The blocks are new: no node they bring is stored, and they bring none twice. -/
structure Fresh (o : IngestionOrchestrator) (chain : List LocatedBlock) (g : Graph) : Prop where
  blocks : g.NewBlocks (blockRows chain)
  rows : o.NewRows chain g

/-- Every output the blocks spend is stored or brought by them. -/
def Known (o : IngestionOrchestrator) (chain : List LocatedBlock) (g : Graph) : Prop :=
  ∀ k ∈ spentKeys chain, (o.putOutputNodes chain g.outputs).Has k

/-- **Growth over what is left.** The blocks' transactions are new, but some of their outputs may be
stored, left by an attempt that failed: locks and spendings are merged with those that are there. -/
structure Merged (o : IngestionOrchestrator) (res : Found) (g : Graph) (chain : List LocatedBlock)
    (g' : Graph) : Prop where
  apart : o.Grown res (g.withCoins 0 0) chain (g'.withCoins ↑(o.locks chain) ↑(spendings chain))
  lockedTo : g'.lockedTo = (o.locks chain).foldl mergeLink g.lockedTo
  spends : g'.spends = (spendings chain).foldl mergeLink g.spends

/-- No transaction of the blocks is stored, and none comes twice. -/
structure Unseen (chain : List LocatedBlock) (g : Graph) : Prop where
  txids : ((txsOf chain).map (·.txid)).Nodup
  transactions : ∀ tx ∈ txsOf chain, ¬ g.transactions.Has tx.txid

variable {o : IngestionOrchestrator} {res res' : Found} {g g₁ g' g'' : Graph}
  {blocks chain' : List LocatedBlock}

/-! ## Distinct rows -/

/-- Lists that are told apart by a key of their elements, joined. -/
theorem nodup_flatMap_keyed {α β κ : Type} {l : List α} {f : α → List β} {key : α → κ}
    (owner : β → κ) (keys : (l.map key).Nodup) (each : ∀ a ∈ l, (f a).Nodup)
    (own : ∀ a, ∀ x ∈ f a, owner x = key a) : (l.flatMap f).Nodup := by
  rw [List.nodup_flatMap]
  refine ⟨each, (List.pairwise_map.mp keys).imp fun {a b} other x ha hb => ?_⟩
  exact other ((own a x ha).symm.trans (own b x hb))

theorem map_zipIdx_ids {α : Type} (t : Txid) {l : List α} (short : l.length < 2 ^ 32) :
    l.zipIdx.map (fun x => (⟨t, asU32 x.2⟩ : OutPoint)) =
      (List.range l.length).map fun i => ⟨t, i⟩ := by
  rw [List.range_eq_range', ← List.zipIdx_map_snd 0 l, List.map_map]
  refine List.map_congr_left fun x mem => ?_
  have inside : x.2 < l.length := by simpa using List.snd_lt_of_mem_zipIdx mem
  show (⟨t, asU32 x.2⟩ : OutPoint) = ⟨t, x.2⟩
  rw [asU32_of_lt (Nat.lt_trans inside short)]

theorem nodup_ids (t : Txid) (n : ℕ) :
    ((List.range n).map fun i => (⟨t, i⟩ : OutPoint)).Nodup :=
  List.nodup_range.map fun _ _ same => congrArg OutPoint.vout same

theorem ids_outputsOf (o : IngestionOrchestrator) (tx : Transaction) :
    (o.outputsOf tx).map (·.outputId) =
      (List.range tx.output.length).map fun i => ⟨tx.txid, i⟩ := by
  rw [← map_zipIdx_ids tx.txid tx.outputs_lt, outputsOf, List.map_map]
  rfl

theorem ids_inputsOf (height : ℕ) (tx : Transaction) :
    (inputsOf height tx).map (·.inputId) =
      (List.range tx.input.length).map fun i => ⟨tx.txid, i⟩ := by
  rw [← map_zipIdx_ids tx.txid tx.inputs_lt, inputsOf, List.map_map]
  rfl

theorem ids_outputRows (o : IngestionOrchestrator) (chain : List LocatedBlock) :
    (o.outputRows chain).map (·.outputId) = (txsOf chain).flatMap fun tx =>
      (List.range tx.output.length).map fun i => ⟨tx.txid, i⟩ := by
  rw [outputRows, List.map_flatMap]
  exact List.flatMap_congr fun tx _ => ids_outputsOf o tx

/-- The inputs of all transactions, whatever block they are in. -/
theorem ids_inputRows (chain : List LocatedBlock) :
    (inputRows chain).map (·.inputId) = (txsOf chain).flatMap fun tx =>
      (List.range tx.input.length).map fun i => ⟨tx.txid, i⟩ := by
  rw [inputRows, txsOf, List.map_flatMap, List.flatMap_assoc]
  refine List.flatMap_congr fun b _ => ?_
  rw [List.map_flatMap]
  exact List.flatMap_congr fun tx _ => ids_inputsOf b.height tx

/-- Blocks whose transactions have different txids have different outputs. -/
theorem nodup_outputIds (o : IngestionOrchestrator)
    (txids : ((txsOf chain).map (·.txid)).Nodup) :
    ((o.outputRows chain).map (·.outputId)).Nodup := by
  rw [ids_outputRows]
  refine nodup_flatMap_keyed OutPoint.txid txids (fun _ _ => nodup_ids ..) fun tx x mem => ?_
  obtain ⟨i, _, rfl⟩ := List.mem_map.mp mem
  rfl

theorem nodup_inputIds (txids : ((txsOf chain).map (·.txid)).Nodup) :
    ((inputRows chain).map (·.inputId)).Nodup := by
  rw [ids_inputRows]
  refine nodup_flatMap_keyed OutPoint.txid txids (fun _ _ => nodup_ids ..) fun tx x mem => ?_
  obtain ⟨i, _, rfl⟩ := List.mem_map.mp mem
  rfl

/-- Transactions with different txids that are not stored, nor their inputs and outputs. -/
theorem newRows_of_txids (txids : ((txsOf chain).map (·.txid)).Nodup)
    (transactions : ∀ tx ∈ txsOf chain, ¬ g.transactions.Has tx.txid)
    (outputs : ∀ out ∈ o.outputRows chain, ¬ g.outputs.Has out.outputId)
    (inputs : ∀ inp ∈ inputRows chain, ¬ g.inputs.Has inp.inputId) : o.NewRows chain g where
  outputIds := nodup_outputIds o txids
  outputs := outputs
  txids := txids
  transactions := transactions
  inputIds := nodup_inputIds txids
  inputs := inputs

/-- A transaction performs once for an address. -/
theorem nodup_performsRows (res : Found) (txids : ((txsOf chain).map (·.txid)).Nodup) :
    ((performsRows res chain).map Performs.ends).Nodup := by
  rw [performsRows, List.map_flatMap]
  refine nodup_flatMap_keyed Prod.snd txids (fun tx _ => ?_) fun tx x mem => ?_
  · have addresses : ((performsOf res tx).map Performs.ends).map Prod.fst =
        (tally ((resolvedInputs res tx).filterMap fun output =>
          output.address.map fun address => (address, output.amount))).map (·.1) := by
      rw [performsOf, List.map_map, List.map_map]
      rfl
    exact List.Nodup.of_map _ (addresses ▸ nodup_tally _)
  · obtain ⟨p, hp, rfl⟩ := List.mem_map.mp mem
    obtain ⟨_, _, rfl⟩ := List.mem_map.mp hp
    rfl

/-- An address benefits once from a transaction. -/
theorem nodup_benefitsRows (o : IngestionOrchestrator)
    (txids : ((txsOf chain).map (·.txid)).Nodup) :
    ((o.benefitsRows chain).map BenefitsTo.ends).Nodup := by
  rw [benefitsRows, List.map_flatMap]
  refine nodup_flatMap_keyed Prod.fst txids (fun tx _ => ?_) fun tx x mem => ?_
  · have addresses : ((o.benefitsOf tx).map BenefitsTo.ends).map Prod.snd =
        (tally ((o.outputsOf tx).filterMap fun output =>
          output.address.map fun address => (address, output.amount))).map (·.1) := by
      rw [benefitsOf, List.map_map, List.map_map]
      rfl
    exact List.Nodup.of_map _ (addresses ▸ nodup_tally _)
  · obtain ⟨p, hp, rfl⟩ := List.mem_map.mp mem
    obtain ⟨_, _, rfl⟩ := List.mem_map.mp hp
    rfl

/-! ## The phases grow the graph -/

/-- New links are added once each, merged or not. -/
theorem foldl_linkBy {ε : Type} [DecidableEq ε] (merging : Bool) {s : Multiset ε} {es : List ε}
    (nodup : es.Nodup) (new : ∀ e ∈ es, e ∉ s) : es.foldl (linkBy merging) s = s + ↑es := by
  cases merging
  · exact foldl_link s es
  · exact foldl_mergeLink nodup new

/-- Rows told apart by their keys are stored in any order. -/
theorem foldl_upsert_nodup {α κ : Type} [DecidableEq α] [DecidableEq κ] {key : α → κ}
    {rows rows' : List α} (perm : rows.Perm rows') (nodup : (rows'.map key).Nodup)
    (t : Table α key) : rows.foldl Table.upsert t = rows'.foldl Table.upsert t :=
  (Table.foldl_upsert_perm perm.symm
    (fun _ ha _ hb same => List.inj_on_of_nodup_map nodup ha hb same)
    t).symm

/-- The block of a row is stored. -/
theorem filterMap_inclusion (stored : ∀ b ∈ chain,
      g₁.blockAt b.height = some (.fromBlock b.block b.height)) :
    (transactionRows res chain).filterMap g₁.inclusion = inclusions chain := by
  unfold transactionRows inclusions
  rw [List.filterMap_flatMap]
  refine List.flatMap_congr fun b mem => ?_
  rw [List.filterMap_map, ← List.filterMap_eq_map]
  refine List.filterMap_congr fun tx _ => ?_
  show (g₁.blockAt b.height).map _ = _
  rw [stored b mem]
  rfl

theorem nodup_inclusions (txids : ((txsOf chain).map (·.txid)).Nodup) :
    (inclusions chain).Nodup := by
  refine List.Nodup.of_map Prod.fst ?_
  have keys : (inclusions chain).map Prod.fst = (txsOf chain).map (·.txid) := by
    rw [inclusions, txsOf, List.map_flatMap, List.map_flatMap]
    exact List.flatMap_congr fun b _ => by rw [List.map_map]; rfl
  rwa [keys]

theorem nodup_ownedInputs (ids : ((inputRows chain).map (·.inputId)).Nodup) :
    (ownedInputs chain).Nodup :=
  List.Nodup.of_map Prod.snd (by rwa [ownedInputs, List.map_map])

theorem nodup_ownedOutputs (ids : ((o.outputRows chain).map (·.outputId)).Nodup) :
    (o.ownedOutputs chain).Nodup :=
  List.Nodup.of_map Prod.snd (by rwa [ownedOutputs, List.map_map])

/-- The first column of a list of pairs built from some of the rows. -/
theorem nodup_filterMap_keyed {α β κ : Type} {l : List α} {f : α → Option (κ × β)} {key : α → κ}
    (keys : (l.map key).Nodup) (own : ∀ a x, f a = some x → x.1 = key a) :
    (l.filterMap f).Nodup := by
  refine List.Nodup.of_map Prod.fst (List.Sublist.nodup ?_ keys)
  induction l with
  | nil => exact .slnil
  | cons a l ih =>
    have rest := ih (List.nodup_cons.mp keys).2
    rw [List.filterMap_cons]
    cases made : f a with
    | none => exact rest.cons _
    | some x =>
      rw [List.map_cons, own a x made]
      exact rest.cons_cons _

theorem nodup_locks (ids : ((o.outputRows chain).map (·.outputId)).Nodup) :
    (o.locks chain).Nodup := by
  refine nodup_filterMap_keyed ids fun out x made => ?_
  obtain ⟨_, _, rfl⟩ := Option.map_eq_some_iff.mp made
  rfl

theorem nodup_spendings (ids : ((inputRows chain).map (·.inputId)).Nodup) :
    (spendings chain).Nodup := by
  refine List.Nodup.of_map Prod.fst (List.Sublist.nodup ?_ ids)
  unfold spendings
  rw [List.map_map]
  exact (List.filter_sublist (l := inputRows chain)).map _

/-- An input that is not a coinbase's references a key its chain spends. -/
theorem previousOutputId_mem_spentKeys {inp : InputData} (mem : inp ∈ inputRows chain)
    (real : inp.previousOutputIndex ≠ maxVout) : inp.previousOutputId ∈ spentKeys chain := by
  obtain ⟨b, hb, inBlock⟩ := List.mem_flatMap.mp mem
  obtain ⟨tx, htx, inTx⟩ := List.mem_flatMap.mp inBlock
  obtain ⟨⟨input, i⟩, at_i, rfl⟩ := List.mem_map.mp inTx
  have member : input ∈ tx.input :=
    List.mem_of_getElem? (List.mk_mem_zipIdx_iff_getElem?.mp at_i)
  refine List.mem_flatMap.mpr ⟨tx, List.mem_flatMap.mpr ⟨b, hb, htx⟩, ?_⟩
  unfold Transaction.inputKeys
  have notCoinbase : tx.isCoinbase = false := by
    cases coinbase : tx.isCoinbase with
    | false => rfl
    | true =>
      unfold Transaction.isCoinbase at coinbase
      split at coinbase
      · rename_i only single
        rw [single, List.mem_singleton] at member
        subst member
        unfold OutPoint.isNull at coinbase
        exact absurd (of_decide_eq_true coinbase).1 real
      · cases coinbase
  rw [notCoinbase]
  exact List.mem_map.mpr ⟨input, member, rfl⟩

/-- The phases over unseen transactions that spend known outputs. Where links are created and not
merged, no row is stored. -/
theorem Merged.phases (sound : Sound g) (new : g.NewBlocks (blockRows chain))
    (unseen : Unseen chain g) (known : o.Known chain g)
    (hu : ∀ a ∈ (blockRows chain).foldl Table.upsert g.blocks,
      ∀ b ∈ (blockRows chain).foldl Table.upsert g.blocks, a.height = b.height → a = b)
    {next : Multiset (BlockHash × BlockHash)}
    (links : next = g.nextBlock + ↑((blockRows chain).filterMap
      (g.withBlocks ((blockRows chain).foldl Table.upsert g.blocks) hu next).prevLink))
    (merging mergingHas : Bool) (rows : ¬ merging → o.NewRows chain g)
    {parts : List (List PerformsData × List BenefitsToData)}
    (performs : (parts.flatMap (·.1)).Perm (performsRows res chain))
    (benefits : (parts.flatMap (·.2)).Perm (o.benefitsRows chain))
    (checkpoint : Option Checkpoint) :
    o.Merged res g chain (o.phases res chain merging mergingHas parts checkpoint
      (g.withBlocks ((blockRows chain).foldl Table.upsert g.blocks) hu next)) := by
  have stored : ∀ b ∈ chain, (g.withBlocks ((blockRows chain).foldl Table.upsert g.blocks) hu
      next).blockAt b.height = some (.fromBlock b.block b.height) := fun b mem => by
    refine Graph.blockAt_eq_some.mpr ⟨?_, rfl⟩
    exact (Table.mem_foldl_upsert_new new.hashes new.free).mpr
      (Or.inl (List.mem_map.mpr ⟨b, mem, rfl⟩))
  have spent : (inputRows chain).filter (fun inp => inp.previousOutputIndex ≠ maxVout ∧
      (o.putOutputNodes chain g.outputs).Has inp.previousOutputId) =
      (inputRows chain).filter fun inp => inp.previousOutputIndex ≠ maxVout := by
    refine List.filter_congr fun inp mem => decide_eq_decide.mpr ⟨And.left, fun real => ?_⟩
    exact ⟨real, known _ (previousOutputId_mem_spentKeys mem real)⟩
  have outputIds := nodup_outputIds o unseen.txids
  have inputIds := nodup_inputIds unseen.txids
  rw [phases_eq o res chain merging mergingHas performs benefits]
  refine ⟨{
    blocks := rfl
    nextBlock := links
    transactions := rfl
    outputs := rfl
    inputs := rfl
    addresses := by
      show _ ∪ _ ∪ (_ ∪ _) = _
      rw [mentioned, Finset.union_assoc, List.toFinset_eq_of_perm _ _ (performs.map _),
        List.toFinset_eq_of_perm _ _ (benefits.map _)]
      rfl
    includedIn := by
      show ((transactionRows res chain).filterMap _).foldl _ _ = _
      rw [filterMap_inclusion stored]
      refine foldl_linkBy merging (nodup_inclusions unseen.txids) fun e mem old => ?_
      obtain ⟨b, hb, inBlock⟩ := List.mem_flatMap.mp mem
      obtain ⟨tx, htx, rfl⟩ := List.mem_map.mp inBlock
      exact unseen.transactions tx (List.mem_flatMap.mpr ⟨b, hb, htx⟩) (sound.includedIn _ old).1
    hasInput := by
      refine foldl_linkBy merging (nodup_ownedInputs inputIds) fun e mem old => ?_
      obtain ⟨inp, hinp, rfl⟩ := List.mem_map.mp mem
      obtain ⟨tx, inChain, same⟩ := txid_of_mem_inputRows hinp
      exact unseen.transactions tx inChain (same ▸ (sound.hasInput _ old).1)
    hasOutput := by
      refine foldl_linkBy mergingHas (nodup_ownedOutputs outputIds) fun e mem old => ?_
      obtain ⟨out, hout, rfl⟩ := List.mem_map.mp mem
      obtain ⟨tx, inChain, same⟩ := txid_of_mem_outputRows hout
      exact unseen.transactions tx inChain (same ▸ (sound.hasOutput _ old).1)
    lockedTo := (zero_add _).symm
    spends := (zero_add _).symm
    performs := foldl_upsert_nodup performs (nodup_performsRows res unseen.txids) _
    benefitsTo := foldl_upsert_nodup benefits (nodup_benefitsRows o unseen.txids) _ }, ?_, ?_⟩
  · cases merging with
    | true => rfl
    | false =>
      refine (foldl_link ..).trans
        (foldl_mergeLink (nodup_locks outputIds) fun e mem old => ?_).symm
      obtain ⟨out, hout, lock⟩ := List.mem_filterMap.mp mem
      obtain ⟨a, _, rfl⟩ := Option.map_eq_some_iff.mp lock
      exact (rows Bool.false_ne_true).outputs out hout (sound.lockedTo _ old).1
  · refine (congrArg (fun rows => (rows.map fun inp : InputData => (inp.inputId,
      inp.previousOutputId)).foldl (linkBy merging) g.spends) spent).trans ?_
    cases merging with
    | true => rfl
    | false =>
      refine (foldl_link ..).trans
        (foldl_mergeLink (nodup_spendings inputIds) fun e mem old => ?_).symm
      obtain ⟨inp, hinp, rfl⟩ := List.mem_map.mp mem
      exact (rows Bool.false_ne_true).inputs inp (List.mem_filter.mp hinp).1 (sound.spends _ old).1

/-- Over rows that are new, merged links are new. -/
theorem Merged.grown (h : o.Merged res g chain g') (sound : Sound g) (rows : o.NewRows chain g) :
    o.Grown res g chain g' where
  blocks := h.apart.blocks
  nextBlock := h.apart.nextBlock
  transactions := h.apart.transactions
  outputs := h.apart.outputs
  inputs := h.apart.inputs
  addresses := h.apart.addresses
  includedIn := h.apart.includedIn
  hasInput := h.apart.hasInput
  hasOutput := h.apart.hasOutput
  lockedTo := by
    refine h.lockedTo.trans (foldl_mergeLink (nodup_locks rows.outputIds) fun e mem old => ?_)
    obtain ⟨out, hout, lock⟩ := List.mem_filterMap.mp mem
    obtain ⟨a, _, rfl⟩ := Option.map_eq_some_iff.mp lock
    exact rows.outputs out hout (sound.lockedTo _ old).1
  spends := by
    refine h.spends.trans (foldl_mergeLink (nodup_spendings rows.inputIds) fun e mem old => ?_)
    obtain ⟨inp, hinp, rfl⟩ := List.mem_map.mp mem
    exact rows.inputs inp (List.mem_filter.mp hinp).1 (sound.spends _ old).1
  performs := h.apart.performs
  benefitsTo := h.apart.benefitsTo

/-- **The phases.** Over new blocks that spend known outputs they add every row and every link
once. -/
theorem Grown.phases (sound : Sound g) (fresh : o.Fresh chain g) (known : o.Known chain g)
    (hu : ∀ a ∈ (blockRows chain).foldl Table.upsert g.blocks,
      ∀ b ∈ (blockRows chain).foldl Table.upsert g.blocks, a.height = b.height → a = b)
    {next : Multiset (BlockHash × BlockHash)}
    (links : next = g.nextBlock + ↑((blockRows chain).filterMap
      (g.withBlocks ((blockRows chain).foldl Table.upsert g.blocks) hu next).prevLink))
    (merging mergingHas : Bool) {parts : List (List PerformsData × List BenefitsToData)}
    (performs : (parts.flatMap (·.1)).Perm (performsRows res chain))
    (benefits : (parts.flatMap (·.2)).Perm (o.benefitsRows chain))
    (checkpoint : Option Checkpoint) :
    o.Grown res g chain (o.phases res chain merging mergingHas parts checkpoint
      (g.withBlocks ((blockRows chain).foldl Table.upsert g.blocks) hu next)) :=
  (Merged.phases sound fresh.blocks ⟨fresh.rows.txids, fresh.rows.transactions⟩ known hu links
    merging mergingHas (fun _ => fresh.rows) performs benefits checkpoint).grown sound fresh.rows

/-! ## What is stored grows the graph -/

/-- The queries of a chunk, if they are accepted. -/
theorem Grown.chunkQueries (sound : Sound g) (rows : o.NewRows chain g) (known : o.Known chain g)
    (ascending : Graph.Ascending (blockRows chain))
    (sent : execAll neo4j (o.chunkQueries res chain) g = .ok g') :
    o.Fresh chain g ∧ o.Grown res g chain g' ∧
      g'.checkpoint = (lastCheckpoint chain).or g.checkpoint := by
  obtain ⟨g₁, created, _, rfl⟩ := execAll_chunkQueries.mp sent
  obtain ⟨new, hu, next, rfl, links⟩ := Graph.execAll_createBlocksFast created
  obtain ⟨performs, benefits⟩ := chunkParts_perm o res chain
  refine ⟨⟨new, rows⟩, .phases sound ⟨new, rows⟩ known _ (links ascending) _ _ performs benefits _,
    ?_⟩
  rw [afterBlocks, phases_eq o res chain _ _ performs benefits]
  rfl

/-- The link that is merged for a new block is new. -/
theorem nextBlock_created {b : LocatedBlock} (sound : Sound g)
    (new : g.NewBlocks (blockRows [b])) {hu} {next : Multiset (BlockHash × BlockHash)}
    (links : next = ([BlockData.fromBlock b.block b.height].filterMap
      (g.withBlocks (g.blocks.upsert (.fromBlock b.block b.height)) hu next).prevLink).foldl
        mergeLink g.nextBlock) :
    next = g.nextBlock + ↑((blockRows [b]).filterMap
      (g.withBlocks ((blockRows [b]).foldl Table.upsert g.blocks) hu next).prevLink) := by
  refine links.trans (foldl_mergeLink ?_ fun e mem old => ?_)
  · rw [List.filterMap_cons]
    split
    · exact List.nodup_nil
    · exact List.nodup_singleton _
  · obtain ⟨row, inRows, link⟩ := List.mem_filterMap.mp mem
    cases List.mem_singleton.mp inRows
    refine new.free _ (List.mem_singleton.mpr rfl) ?_
    unfold Graph.prevLink at link
    split at link
    · obtain ⟨p, _, rfl⟩ := Option.map_eq_some_iff.mp link
      exact (sound.nextBlock _ old).2
    · cases link

variable (res) in
/-- A block, once its node is stored and its inputs are resolved. -/
theorem Grown.finishBlock {b : LocatedBlock} (sound : Sound g) (fresh : o.Fresh [b] g)
    (known : o.Known [b] g) (created : (blockQuery b).exec g = .ok g₁) (offset : Option ℕ) :
    o.Grown res g [b] (o.finishBlock res b offset (o.putOutputs b g₁)) ∧
      (o.finishBlock res b offset (o.putOutputs b g₁)).checkpoint =
        some (.ofData (blockCheckpoint b offset)) := by
  obtain ⟨_, hu, next, rfl, links⟩ := Graph.exec_createBlocks_one.mp created
  obtain ⟨performs, benefits⟩ := blockParts_perm o res b
  rw [finishBlock_eq]
  refine ⟨.phases sound fresh known hu (nextBlock_created sound fresh.blocks links) _ _ performs
    benefits _, ?_⟩
  rw [phases_eq o res [b] _ _ performs benefits]
  rfl

/-! ## Growth composes -/

theorem Grown.refl (o : IngestionOrchestrator) (res : Found) (g : Graph) : o.Grown res g [] g where
  blocks := rfl
  nextBlock := (add_zero _).symm
  transactions := rfl
  outputs := rfl
  inputs := rfl
  addresses := (Finset.union_empty _).symm
  includedIn := (add_zero _).symm
  hasInput := (add_zero _).symm
  hasOutput := (add_zero _).symm
  lockedTo := (add_zero _).symm
  spends := (add_zero _).symm
  performs := rfl
  benefitsTo := rfl

theorem outputRows_append (o : IngestionOrchestrator) (chain chain' : List LocatedBlock) :
    o.outputRows (chain ++ chain') = o.outputRows chain ++ o.outputRows chain' := by
  simp [outputRows, txsOf]

theorem inputRows_append (chain chain' : List LocatedBlock) :
    inputRows (chain ++ chain') = inputRows chain ++ inputRows chain' :=
  List.flatMap_append ..

theorem txsOf_append (chain chain' : List LocatedBlock) :
    txsOf (chain ++ chain') = txsOf chain ++ txsOf chain' := List.flatMap_append ..

theorem denotes_append {U : Denotation} : Denotes U (txsOf (chain ++ chain')) ↔
    Denotes U (txsOf chain) ∧ Denotes U (txsOf chain') := by
  rw [txsOf_append]
  exact List.forall_mem_append

theorem mem_txsOf_flatten {chunks : List (List LocatedBlock)} {tx : Transaction}
    (mem : chain ∈ chunks) (inChunk : tx ∈ txsOf chain) : tx ∈ txsOf chunks.flatten := by
  obtain ⟨b, hb, inBlock⟩ := List.mem_flatMap.mp inChunk
  exact List.mem_flatMap.mpr ⟨b, List.mem_flatten.mpr ⟨chain, mem, hb⟩, inBlock⟩

theorem performsRows_append (res : Found) (chain chain' : List LocatedBlock) :
    performsRows res (chain ++ chain') = performsRows res chain ++ performsRows res chain' := by
  rw [performsRows, txsOf_append, List.flatMap_append]
  rfl

theorem benefitsRows_append (o : IngestionOrchestrator) (chain chain' : List LocatedBlock) :
    o.benefitsRows (chain ++ chain') = o.benefitsRows chain ++ o.benefitsRows chain' := by
  rw [benefitsRows, txsOf_append, List.flatMap_append]
  rfl

theorem blockRows_append (chain chain' : List LocatedBlock) :
    blockRows (chain ++ chain') = blockRows chain ++ blockRows chain' := List.map_append ..

theorem mentioned_append (o : IngestionOrchestrator) (res : Found)
    (chain chain' : List LocatedBlock) :
    o.mentioned res (chain ++ chain') = o.mentioned res chain ∪ o.mentioned res chain' := by
  unfold mentioned
  rw [outputRows_append, performsRows_append, benefitsRows_append, List.filterMap_append,
    List.map_append, List.map_append, List.toFinset_append, List.toFinset_append,
    List.toFinset_append]
  ext a
  simp only [Finset.mem_union]
  tauto

theorem ownedOutputs_append (o : IngestionOrchestrator) (chain chain' : List LocatedBlock) :
    o.ownedOutputs (chain ++ chain') = o.ownedOutputs chain ++ o.ownedOutputs chain' := by
  unfold ownedOutputs
  rw [outputRows_append, List.map_append]

theorem locks_append (o : IngestionOrchestrator) (chain chain' : List LocatedBlock) :
    o.locks (chain ++ chain') = o.locks chain ++ o.locks chain' := by
  unfold locks
  rw [outputRows_append, List.filterMap_append]

theorem spendings_append (chain chain' : List LocatedBlock) :
    spendings (chain ++ chain') = spendings chain ++ spendings chain' := by
  unfold spendings
  rw [inputRows_append, List.filter_append, List.map_append]

/-- The links of blocks do not change as higher blocks come in. -/
theorem Grown.links_stable (h : o.Grown res g₁ chain' g') (new : g₁.NewBlocks (blockRows chain'))
    (below : ∀ a ∈ chain, ∀ b ∈ chain', a.height < b.height) :
    (blockRows chain).filterMap g'.prevLink = (blockRows chain).filterMap g₁.prevLink := by
  have rowsBelow : ∀ r ∈ blockRows chain, ∀ r' ∈ blockRows chain', r.height < r'.height := by
    intro r hr r' hr'
    obtain ⟨a, ha, rfl⟩ := List.mem_map.mp hr
    obtain ⟨b, hb, rfl⟩ := List.mem_map.mp hr'
    exact below a ha b hb
  have stable := Graph.filterMap_prevLink_withBlocks new rowsBelow new.heightUnique g₁.nextBlock
  rw [← stable]
  exact congrArg (fun f => (blockRows chain).filterMap f) (Graph.prevLink_congr h.blocks)

/-- Growing twice, the second time by higher blocks. -/
theorem Grown.append (h : o.Grown res g chain g₁) (h' : o.Grown res g₁ chain' g')
    (new : g₁.NewBlocks (blockRows chain'))
    (below : ∀ a ∈ chain, ∀ b ∈ chain', a.height < b.height) :
    o.Grown res g (chain ++ chain') g' where
  blocks := by rw [h'.blocks, h.blocks, blockRows_append, List.foldl_append]
  nextBlock := by
    rw [h'.nextBlock, h.nextBlock, blockRows_append, List.filterMap_append, ← Multiset.coe_add,
      add_assoc, h'.links_stable new below]
  transactions := by
    rw [h'.transactions, h.transactions]
    unfold putTransactions transactionRows
    rw [List.flatMap_append, List.map_append, List.foldl_append]
  outputs := by
    rw [h'.outputs, h.outputs]
    unfold putOutputNodes
    rw [outputRows_append, List.map_append, List.foldl_append]
  inputs := by rw [h'.inputs, h.inputs, inputRows_append, List.map_append, List.foldl_append]
  addresses := by rw [h'.addresses, h.addresses, mentioned_append, Finset.union_assoc]
  includedIn := by
    rw [h'.includedIn, h.includedIn, add_assoc, Multiset.coe_add]
    unfold inclusions
    rw [List.flatMap_append]
  hasInput := by
    rw [h'.hasInput, h.hasInput, add_assoc, Multiset.coe_add]
    unfold ownedInputs
    rw [inputRows_append, List.map_append]
  hasOutput := by
    rw [h'.hasOutput, h.hasOutput, add_assoc, Multiset.coe_add, ownedOutputs_append]
  lockedTo := by
    rw [h'.lockedTo, h.lockedTo, add_assoc, Multiset.coe_add, locks_append]
  spends := by
    rw [h'.spends, h.spends, add_assoc, Multiset.coe_add, spendings_append]
  performs := by rw [h'.performs, h.performs, performsRows_append, List.foldl_append]
  benefitsTo := by rw [h'.benefitsTo, h.benefitsTo, benefitsRows_append, List.foldl_append]

/-- The blocks and the checkpoint determine the graph. -/
theorem Grown.unique (h : o.Grown res g chain g') (h' : o.Grown res g chain g'')
    (checkpoint : g'.checkpoint = g''.checkpoint) : g' = g'' := by
  have blocks : g'.blocks = g''.blocks := h.blocks.trans h'.blocks.symm
  refine Graph.ext blocks (h.transactions.trans h'.transactions.symm)
    (h.outputs.trans h'.outputs.symm) (h.inputs.trans h'.inputs.symm)
    (h.addresses.trans h'.addresses.symm) ?_ (h.includedIn.trans h'.includedIn.symm)
    (h.hasInput.trans h'.hasInput.symm) (h.hasOutput.trans h'.hasOutput.symm)
    (h.lockedTo.trans h'.lockedTo.symm) (h.spends.trans h'.spends.symm)
    (h.performs.trans h'.performs.symm) (h.benefitsTo.trans h'.benefitsTo.symm) checkpoint
  rw [h.nextBlock, h'.nextBlock, Graph.prevLink_congr blocks]

theorem Merged.refl (o : IngestionOrchestrator) (res : Found) (g : Graph) :
    o.Merged res g [] g where
  apart := .refl ..
  lockedTo := rfl
  spends := rfl

/-- Growing twice, the second time by higher blocks. -/
theorem Merged.append (h : o.Merged res g chain g₁) (h' : o.Merged res g₁ chain' g')
    (new : g₁.NewBlocks (blockRows chain'))
    (below : ∀ a ∈ chain, ∀ b ∈ chain', a.height < b.height) :
    o.Merged res g (chain ++ chain') g' where
  apart := by
    have second := h'.apart
    have shifted : o.Grown res (g₁.withCoins ↑(o.locks chain) ↑(spendings chain)) chain'
        (g'.withCoins ↑(o.locks (chain ++ chain')) ↑(spendings (chain ++ chain'))) := {
      blocks := second.blocks
      nextBlock := second.nextBlock
      transactions := second.transactions
      outputs := second.outputs
      inputs := second.inputs
      addresses := second.addresses
      includedIn := second.includedIn
      hasInput := second.hasInput
      hasOutput := second.hasOutput
      lockedTo := by
        rw [locks_append, ← Multiset.coe_add]
        rfl
      spends := by
        rw [spendings_append, ← Multiset.coe_add]
        rfl
      performs := second.performs
      benefitsTo := second.benefitsTo }
    exact h.apart.append shifted ⟨new.hashes, new.free, new.heights, new.unused⟩ below
  lockedTo := by rw [h'.lockedTo, h.lockedTo, locks_append, List.foldl_append]
  spends := by rw [h'.spends, h.spends, spendings_append, List.foldl_append]

/-- The blocks determine the graph, up to the checkpoint. -/
theorem Merged.unique (h : o.Merged res g chain g') (h' : o.Merged res g chain g'') :
    { g' with checkpoint := none } = { g'' with checkpoint := none } := by
  have first := h.apart
  have second := h'.apart
  have blocks : g'.blocks = g''.blocks := first.blocks.trans second.blocks.symm
  have nextBlock : g'.nextBlock = g''.nextBlock := by
    have made := first.nextBlock
    have same : (g'.withCoins ↑(o.locks chain) ↑(spendings chain)).prevLink =
        (g''.withCoins ↑(o.locks chain) ↑(spendings chain)).prevLink := Graph.prevLink_congr blocks
    rw [same] at made
    exact made.trans second.nextBlock.symm
  exact Graph.ext blocks (first.transactions.trans second.transactions.symm)
    (first.outputs.trans second.outputs.symm) (first.inputs.trans second.inputs.symm)
    (first.addresses.trans second.addresses.symm) nextBlock
    (first.includedIn.trans second.includedIn.symm) (first.hasInput.trans second.hasInput.symm)
    (first.hasOutput.trans second.hasOutput.symm) (h.lockedTo.trans h'.lockedTo.symm)
    (h.spends.trans h'.spends.symm) (first.performs.trans second.performs.symm)
    (first.benefitsTo.trans second.benefitsTo.symm) rfl

/-! ## What is new stays new -/

theorem NewRows.left (h : o.NewRows (chain ++ chain') g) : o.NewRows chain g := by
  have outputIds := h.outputIds
  have txids := h.txids
  have inputIds := h.inputIds
  rw [outputRows_append, List.map_append] at outputIds
  rw [txsOf_append, List.map_append] at txids
  rw [inputRows_append, List.map_append] at inputIds
  exact {
    outputIds := (List.nodup_append.mp outputIds).1
    outputs := fun out mem => h.outputs out
      (outputRows_append o chain chain' ▸ List.mem_append_left _ mem)
    txids := (List.nodup_append.mp txids).1
    transactions := fun tx mem => h.transactions tx
      (txsOf_append chain chain' ▸ List.mem_append_left _ mem)
    inputIds := (List.nodup_append.mp inputIds).1
    inputs := fun inp mem => h.inputs inp
      (inputRows_append chain chain' ▸ List.mem_append_left _ mem) }

/-- Rows that are new and differ from those the graph has grown by are new still. -/
theorem NewRows.after (all : o.NewRows (chain ++ chain') g) (h : o.Grown res g chain g₁) :
    o.NewRows chain' g₁ := by
  have outputIds := all.outputIds
  have txids := all.txids
  have inputIds := all.inputIds
  rw [outputRows_append, List.map_append, List.nodup_append] at outputIds
  rw [txsOf_append, List.map_append, List.nodup_append] at txids
  rw [inputRows_append, List.map_append, List.nodup_append] at inputIds
  exact {
    outputIds := outputIds.2.1
    outputs := fun out mem has => by
      rw [h.outputs, has_putOutputNodes] at has
      rcases has with ⟨old, inside, same⟩ | stored
      · exact outputIds.2.2 _ (List.mem_map_of_mem inside) _ (List.mem_map_of_mem mem) same
      · exact all.outputs out
          (outputRows_append o chain chain' ▸ List.mem_append_right _ mem) stored
    txids := txids.2.1
    transactions := fun tx mem has => by
      rw [h.transactions, has_putTransactions] at has
      rcases has with ⟨old, inside, same⟩ | stored
      · exact txids.2.2 _ (List.mem_map_of_mem inside) _ (List.mem_map_of_mem mem) same
      · exact all.transactions tx
          (txsOf_append chain chain' ▸ List.mem_append_right _ mem) stored
    inputIds := inputIds.2.1
    inputs := fun inp mem has => by
      rw [h.inputs, Table.has_foldl_upsert, List.map_map, List.mem_map] at has
      rcases has with ⟨old, inside, same⟩ | stored
      · exact inputIds.2.2 _ (List.mem_map_of_mem inside) _ (List.mem_map_of_mem mem) same
      · exact all.inputs inp
          (inputRows_append chain chain' ▸ List.mem_append_right _ mem) stored }

/-- New blocks in two parts. -/
theorem Grown.newBlocks_append (h : o.Grown res g chain g₁)
    (new : g.NewBlocks (blockRows chain)) :
    g.NewBlocks (blockRows (chain ++ chain')) ↔ g₁.NewBlocks (blockRows chain') := by
  rw [blockRows_append, Graph.newBlocks_append new new.heightUnique 0]
  constructor
  · rintro ⟨hashes, free, heights, unused⟩
    refine ⟨hashes, fun b hb has => free b hb ?_, heights, fun b hb c hc => unused b hb c ?_⟩
    · rw [h.blocks] at has
      exact has
    · rw [h.blocks] at hc
      exact hc
  · rintro ⟨hashes, free, heights, unused⟩
    refine ⟨hashes, fun b hb has => free b hb ?_, heights, fun b hb c hc => unused b hb c ?_⟩
    · rw [h.blocks]
      exact has
    · rw [h.blocks]
      exact hc

/-- The outputs blocks bring, by id. -/
theorem exists_outputRow {k : OutputId} :
    (∃ out ∈ o.outputRows chain, out.outputId = k) ↔
      ∃ tx ∈ txsOf chain, tx.txid = k.txid ∧ k.vout < tx.output.length := by
  rw [← List.mem_map (f := fun out : OutputData => out.outputId), ids_outputRows, List.mem_flatMap]
  refine exists_congr fun tx => and_congr_right fun _ => ?_
  rw [List.mem_map]
  constructor
  · rintro ⟨i, inside, rfl⟩
    exact ⟨rfl, List.mem_range.mp inside⟩
  · rintro ⟨same, inside⟩
    exact ⟨k.vout, List.mem_range.mpr inside, by rw [same]⟩

/-! ## What inputs resolve to -/

/-- Only what the blocks spend is resolved. -/
theorem resolvedInputs_congr {tx : Transaction} (same : ∀ k ∈ tx.inputKeys, res k = res' k) :
    resolvedInputs res tx = resolvedInputs res' tx :=
  List.filterMap_congr same

theorem transactionRows_congr (same : ∀ k ∈ spentKeys chain, res k = res' k) :
    transactionRows res chain = transactionRows res' chain := by
  refine List.flatMap_congr fun b hb => List.map_congr_left fun tx htx => ?_
  unfold priceTransaction
  rw [resolvedInputs_congr fun k hk => same k
    (List.mem_flatMap.mpr ⟨tx, List.mem_flatMap.mpr ⟨b, hb, htx⟩, hk⟩)]

theorem performsRows_congr (same : ∀ k ∈ spentKeys chain, res k = res' k) :
    performsRows res chain = performsRows res' chain := by
  refine List.flatMap_congr fun tx htx => ?_
  unfold performsOf
  rw [resolvedInputs_congr fun k hk => same k (List.mem_flatMap.mpr ⟨tx, htx, hk⟩)]

theorem Grown.congr_rows (h : o.Grown res g chain g')
    (transactions : transactionRows res chain = transactionRows res' chain)
    (performs : performsRows res chain = performsRows res' chain) : o.Grown res' g chain g' where
  blocks := h.blocks
  nextBlock := h.nextBlock
  transactions := by
    rw [h.transactions]
    unfold putTransactions
    rw [transactions]
  outputs := h.outputs
  inputs := h.inputs
  addresses := by
    rw [h.addresses]
    unfold mentioned
    rw [performs]
  includedIn := h.includedIn
  hasInput := h.hasInput
  hasOutput := h.hasOutput
  lockedTo := h.lockedTo
  spends := h.spends
  performs := by rw [h.performs, performs]
  benefitsTo := h.benefitsTo

theorem Grown.congr (h : o.Grown res g chain g') (same : ∀ k ∈ spentKeys chain, res k = res' k) :
    o.Grown res' g chain g' :=
  h.congr_rows (transactionRows_congr same) (performsRows_congr same)

theorem Merged.congr_rows (h : o.Merged res g chain g')
    (transactions : transactionRows res chain = transactionRows res' chain)
    (performs : performsRows res chain = performsRows res' chain) : o.Merged res' g chain g' where
  apart := h.apart.congr_rows transactions performs
  lockedTo := h.lockedTo
  spends := h.spends

theorem Merged.congr (h : o.Merged res g chain g')
    (same : ∀ k ∈ spentKeys chain, res k = res' k) : o.Merged res' g chain g' :=
  h.congr_rows (transactionRows_congr same) (performsRows_congr same)

end IngestionOrchestrator

end ChainGraph
