import ChainGraph.Laws.Delivery

/-!
# One block over a connection that loses calls

`ingest_block` commits every statement on its own. A call that fails leaves the first of its
statements, and a statement whose answer was lost with them. None of this is undone, and none of it
is in the way: finishing the block from there leaves what finishing it at first would have left.
-/

namespace ChainGraph

open Foundation Foundation.Store

namespace IngestionOrchestrator

variable {o : IngestionOrchestrator} {U : Denotation} {g g₁ g' x : Graph} {c : UtxoCache}
  {b : LocatedBlock} {offset : Option ℕ} {res : Found}

/-! ## Finishing a block from anywhere -/

/-- The graph in which the outputs of a block and all that comes after them are stored. -/
def finished (o : IngestionOrchestrator) (res : Found) (b : LocatedBlock) (offset : Option ℕ)
    (g : Graph) : Graph :=
  o.finishBlock res b offset (o.putOutputs b g)

section Rows

/-- An address that comes in anyway may be there before. -/
theorem insert_union_absorbs {a : Address} {s t u : Finset Address} (mem : a ∈ t ∪ u) :
    insert a s ∪ t ∪ u = s ∪ t ∪ u := by
  rw [Finset.union_assoc, Finset.union_assoc, Finset.insert_union]
  exact Finset.insert_eq_of_mem (Finset.mem_union_right s mem)

theorem finished_eq (o : IngestionOrchestrator) (res : Found) (b : LocatedBlock)
    (offset : Option ℕ) (g : Graph) : o.finished res b offset g =
      { g with
        transactions := putTransactions res [b] g.transactions
        outputs := o.putOutputNodes [b] g.outputs
        inputs := ((inputRows [b]).map InputNode.ofData).foldl Table.upsert g.inputs
        addresses := g.addresses ∪ ((o.outputRows [b]).filterMap (·.address)).toFinset ∪
          (((performsRows res [b]).map (·.fromAddress)).toFinset ∪
            ((o.benefitsRows [b]).map (·.toAddress)).toFinset)
        includedIn := ((transactionRows res [b]).filterMap g.inclusion).foldl mergeLink g.includedIn
        hasInput := ((inputRows [b]).map fun inp => (inp.txid, inp.inputId)).foldl mergeLink
          g.hasInput
        hasOutput := ((o.outputRows [b]).map fun out => (out.txid, out.outputId)).foldl mergeLink
          g.hasOutput
        lockedTo := ((o.outputRows [b]).filterMap fun out =>
          out.address.map fun a => (out.outputId, a)).foldl mergeLink g.lockedTo
        spends := (((inputRows [b]).filter fun inp => inp.previousOutputIndex ≠ maxVout ∧
          (o.putOutputNodes [b] g.outputs).Has inp.previousOutputId).map fun inp =>
            (inp.inputId, inp.previousOutputId)).foldl mergeLink g.spends
        performs := (performsRows res [b]).foldl Table.upsert g.performs
        benefitsTo := (o.benefitsRows [b]).foldl Table.upsert g.benefitsTo
        checkpoint := some (.ofData (blockCheckpoint b offset)) } := by
  obtain ⟨performs, benefits⟩ := blockParts_perm o res b
  have one : o.finished res b offset g = o.phases res [b] true true (o.blockParts res b)
      (some (.ofData (blockCheckpoint b offset))) g := rfl
  rw [one, phases_eq o res [b] true true performs benefits]
  simp only [blockParts, List.flatMap_singleton, linkBy]
  rfl

variable (g : Graph)

theorem finished_mergeOutput {out : OutputData} (mem : out ∈ o.outputRows [b]) :
    o.finished res b offset (g.mergeOutput out) = o.finished res b offset g := by
  have outputs : o.putOutputNodes [b] (g.mergeOutput out).outputs =
      o.putOutputNodes [b] g.outputs := Table.foldl_upsert_absorbs (List.mem_map_of_mem mem) _
  rw [finished_eq, finished_eq, outputs]
  rfl

theorem finished_lockRow {out : OutputData} (mem : out ∈ o.outputRows [b]) :
    o.finished res b offset (g.lockRow mergeLink out) = o.finished res b offset g := by
  unfold Graph.lockRow
  cases address : out.address with
  | none => rfl
  | some a =>
    have listed : a ∈ (o.outputRows [b]).filterMap (·.address) :=
      List.mem_filterMap.mpr ⟨out, mem, address⟩
    rw [finished_eq, finished_eq]
    apply Graph.ext
    case addresses =>
      exact insert_union_absorbs (Finset.mem_union_left _ (List.mem_toFinset.mpr listed))
    case lockedTo =>
      refine foldl_mergeLink_absorbs (List.mem_filterMap.mpr ⟨out, mem, ?_⟩) _
      rw [address]
      rfl
    all_goals rfl

theorem finished_putTransaction {tx : TransactionData} (mem : tx ∈ transactionRows res [b]) :
    o.finished res b offset (g.putTransaction mergeLink tx) = o.finished res b offset g := by
  rw [finished_eq, finished_eq]
  apply Graph.ext
  case transactions => exact Table.foldl_upsert_absorbs (List.mem_map_of_mem mem) _
  case includedIn =>
    have links : (g.putTransaction mergeLink tx).inclusion = g.inclusion := rfl
    dsimp only
    rw [links]
    unfold Graph.putTransaction
    cases stored : g.blockAt tx.blockHeight with
    | none => rfl
    | some n =>
      refine foldl_mergeLink_absorbs (List.mem_filterMap.mpr ⟨tx, mem, ?_⟩) _
      rw [Graph.inclusion, stored]
      rfl
  all_goals rfl

theorem finished_putHasOutput {out : OutputData} (mem : out ∈ o.outputRows [b]) :
    o.finished res b offset (g.putHasOutput mergeLink out) = o.finished res b offset g := by
  have listed : (out.txid, out.outputId) ∈
      (o.outputRows [b]).map fun out => (out.txid, out.outputId) := List.mem_map_of_mem mem
  unfold Graph.putHasOutput
  split
  · rw [finished_eq, finished_eq]
    apply Graph.ext
    case hasOutput => exact foldl_mergeLink_absorbs listed _
    all_goals rfl
  · rfl

theorem finished_putInput {inp : InputData} (mem : inp ∈ inputRows [b]) :
    o.finished res b offset (g.putInput mergeLink mergeLink inp) = o.finished res b offset g := by
  have owned : (inp.txid, inp.inputId) ∈
      (inputRows [b]).map fun inp => (inp.txid, inp.inputId) := List.mem_map_of_mem mem
  rw [finished_eq, finished_eq]
  apply Graph.ext
  case inputs => exact Table.foldl_upsert_absorbs (List.mem_map_of_mem mem) _
  case hasInput =>
    unfold Graph.putInput
    dsimp only
    split
    · exact foldl_mergeLink_absorbs owned _
    · rfl
  case spends =>
    unfold Graph.putInput
    dsimp only
    split
    · rename_i spending
      obtain ⟨-, real, has⟩ := spending
      have spent : (o.putOutputNodes [b] g.outputs).Has inp.previousOutputId := by
        rw [putOutputNodes, Table.has_foldl_upsert]
        exact Or.inr has
      have listed : (inp.inputId, inp.previousOutputId) ∈ ((inputRows [b]).filter fun inp =>
          inp.previousOutputIndex ≠ maxVout ∧
            (o.putOutputNodes [b] g.outputs).Has inp.previousOutputId).map fun inp =>
              (inp.inputId, inp.previousOutputId) :=
        List.mem_map_of_mem (List.mem_filter.mpr ⟨mem, decide_eq_true ⟨real, spent⟩⟩)
      exact foldl_mergeLink_absorbs listed _
    · rfl
  all_goals rfl

theorem finished_mergePerforms {p : PerformsData} (mem : p ∈ performsRows res [b]) :
    o.finished res b offset (g.mergePerforms p) = o.finished res b offset g := by
  have listed : p.fromAddress ∈ (performsRows res [b]).map (·.fromAddress) :=
    List.mem_map_of_mem mem
  rw [finished_eq, finished_eq]
  apply Graph.ext
  case addresses =>
    exact insert_union_absorbs (Finset.mem_union_right _
      (Finset.mem_union_left _ (List.mem_toFinset.mpr listed)))
  case performs =>
    unfold Graph.mergePerforms
    dsimp only
    split
    · exact Table.foldl_upsert_absorbs mem _
    · rfl
  all_goals rfl

theorem finished_mergeBenefitsTo {r : BenefitsToData} (mem : r ∈ o.benefitsRows [b]) :
    o.finished res b offset (g.mergeBenefitsTo r) = o.finished res b offset g := by
  have listed : r.toAddress ∈ (o.benefitsRows [b]).map (·.toAddress) := List.mem_map_of_mem mem
  unfold Graph.mergeBenefitsTo
  split
  · rw [finished_eq, finished_eq]
    apply Graph.ext
    case addresses =>
      exact insert_union_absorbs (Finset.mem_union_right _
        (Finset.mem_union_right _ (List.mem_toFinset.mpr listed)))
    case benefitsTo => exact Table.foldl_upsert_absorbs mem _
    all_goals rfl
  · rfl

end Rows

/-! ## Parts of a block -/

/-- The statement writes rows of the block, or the checkpoint. -/
def PartOf (o : IngestionOrchestrator) (res : Found) (b : LocatedBlock) : Query → Prop
  | .createOutputs rows => rows ⊆ o.outputRows [b]
  | .createLockedTo rows => rows ⊆ o.outputRows [b]
  | .createTransactions rows => rows ⊆ transactionRows res [b]
  | .createHasOutput rows => rows ⊆ o.outputRows [b]
  | .createInputs rows => rows ⊆ inputRows [b]
  | .createPerformsBulk rows => rows ⊆ performsRows res [b]
  | .createBenefitsToBulk rows => rows ⊆ o.benefitsRows [b]
  | .updateCheckpoint _ => True
  | _ => False

theorem finished_foldl {α : Type} {f : Graph → α → Graph} {rows all : List α}
    (each : ∀ g, ∀ a ∈ all, o.finished res b offset (f g a) = o.finished res b offset g)
    (part : rows ⊆ all) (g : Graph) :
    o.finished res b offset (rows.foldl f g) = o.finished res b offset g := by
  induction rows generalizing g with
  | nil => rfl
  | cons a rows ih =>
    obtain ⟨here, later⟩ := List.cons_subset.mp part
    exact (ih later (f g a)).trans (each g a here)

theorem finished_mergeLockedTo {rows : List OutputData} (part : rows ⊆ o.outputRows [b])
    (ran : rows.foldlM Graph.mergeLockedTo g = .ok g') :
    o.finished res b offset g' = o.finished res b offset g := by
  induction rows generalizing g with
  | nil =>
    cases ran
    rfl
  | cons out rows ih =>
    obtain ⟨here, later⟩ := List.cons_subset.mp part
    rw [List.foldlM_cons] at ran
    cases step : g.mergeLockedTo out with
    | error e =>
      rw [step] at ran
      cases ran
    | ok x =>
      rw [step] at ran
      refine (ih later ran).trans ?_
      unfold Graph.mergeLockedTo at step
      split at step
      · cases address : out.address with
        | none =>
          rw [address] at step
          cases step
        | some a =>
          rw [address] at step
          cases step
          have locked : g.lockTo mergeLink out.outputId a = g.lockRow mergeLink out := by
            rw [Graph.lockRow, address]
          rw [locked, finished_lockRow g here]
      · cases step
        rfl

/-- **Absorption.** Whatever part of a block has been written, finishing the block leaves the
same. -/
theorem finished_exec {q : Query} (part : o.PartOf res b q) (ran : q.exec g = .ok g') :
    o.finished res b offset g' = o.finished res b offset g := by
  cases q with
  | createOutputs rows =>
    cases ran
    exact finished_foldl (fun g _ mem => finished_mergeOutput g mem) part g
  | createLockedTo rows => exact finished_mergeLockedTo part ran
  | createTransactions rows =>
    cases ran
    exact finished_foldl (fun g _ mem => finished_putTransaction g mem) part g
  | createHasOutput rows =>
    cases ran
    exact finished_foldl (fun g _ mem => finished_putHasOutput g mem) part g
  | createInputs rows =>
    cases ran
    exact finished_foldl (fun g _ mem => finished_putInput g mem) part g
  | createPerformsBulk rows =>
    cases ran
    exact finished_foldl (fun g _ mem => finished_mergePerforms g mem) part g
  | createBenefitsToBulk rows =>
    cases ran
    exact finished_foldl (fun g _ mem => finished_mergeBenefitsTo g mem) part g
  | updateCheckpoint checkpoint =>
    cases ran
    rw [finished_eq, finished_eq]
    rfl
  | _ => exact part.elim

variable (offset) in
theorem finished_execAll {qs : List Query} (parts : ∀ q ∈ qs, o.PartOf res b q)
    (ran : execAll neo4j qs g = .ok g') :
    o.finished res b offset g' = o.finished res b offset g := by
  induction qs generalizing g with
  | nil =>
    cases ran
    rfl
  | cons q qs ih =>
    obtain ⟨here, later⟩ := List.forall_mem_cons.mp parts
    obtain ⟨mid, first, rest⟩ := execAll_cons_eq_ok.mp ran
    exact (ih later rest).trans (finished_exec here first)

theorem partOf_batchQueries {α : Type} {query : List α → Query} {items : List α}
    (part : ∀ rows, rows ⊆ items → o.PartOf res b (query rows)) :
    ∀ q ∈ o.writer.batchQueries query items, o.PartOf res b q := by
  intro q mem
  obtain ⟨rows, among, one⟩ := List.mem_flatMap.mp mem
  cases List.mem_singleton.mp one
  exact part rows fun a inside => mem_of_mem_chunks o.writer.batchSize_pos among inside

theorem partOf_outputQueries :
    ∀ q ∈ o.writer.outputQueries (o.outputRows [b]), o.PartOf res b q := by
  intro q mem
  obtain ⟨rows, among, either⟩ := List.mem_flatMap.mp mem
  have part : rows ⊆ o.outputRows [b] := fun a inside =>
    mem_of_mem_chunks o.writer.batchSize_pos among inside
  rcases List.mem_cons.mp either with rfl | locking
  · exact part
  · unfold Neo4jWriter.lockedToQueries at locking
    split at locking
    · cases locking
    · cases List.mem_singleton.mp locking
      exact fun out inside => part (List.mem_filter.mp inside).1

/-! ## Caches -/

theorem coins_putOutputs_twice (o : IngestionOrchestrator) (b : LocatedBlock) (g : Graph) :
    (o.putOutputs b (o.putOutputs b g)).outputs = (o.putOutputs b g).outputs ∧
      (o.putOutputs b (o.putOutputs b g)).lockedTo = (o.putOutputs b g).lockedTo := by
  unfold putOutputs
  rw [Graph.foldl_putOutput_eq _ g, Graph.foldl_putOutput_eq]
  exact ⟨Table.foldl_upsert_twice _ _, foldl_mergeLink_twice _ _⟩

/-- A cache that is coherent with a graph is with a larger one of the same chain. -/
theorem Faithful.coherent (h : o.Faithful U g) (h' : o.Faithful U g')
    (more : ∀ k, g.outputs.Has k → g'.outputs.Has k) (coherent : Coherent g c) :
    Coherent g' c := by
  intro k v present
  have stored := coherent.has (k := k) (by rw [present, Option.isSome_some])
  rw [h'.resolve (more _ stored)]
  exact h.resolve_eq_some (coherent k v present)

/-- The outputs of a block, put into the cache once more. -/
theorem coherent_populateCache_again (h : o.Faithful U (o.putOutputs b g))
    (denoted : Denotes U (txsOf [b])) (coherent : Coherent (o.putOutputs b g) c) :
    Coherent (o.putOutputs b g) (populateCache (o.outputRows [b]) c) := by
  have filled := coherent_populateCache h coherent (fun _ mem => rowOf_outputId denoted mem)
    adds_mergeLink
  obtain ⟨outputs, locks⟩ := coins_putOutputs_twice o b g
  exact filled.congr outputs.symm locks.symm

/-! ## Calls that may be lost -/

section Holds

variable {α : Type} {post : Except WriterError α → World neo4j UtxoCache → Prop} {s : Store neo4j}

/-- The outcomes of the calls of the orchestrator. -/
abbrev lossy : Outcomes (Client neo4j UtxoCache WriterError) (World neo4j UtxoCache) :=
  Client.lossy neo4j UtxoCache WriterError

theorem holds_getCache {rest : UtxoCache → Ingest α} (later : (rest c).Holds lossy post ⟨s, c⟩) :
    (getCache >>= rest).Holds lossy post ⟨s, c⟩ := by
  refine ⟨trivial, fun r w served => ?_⟩
  obtain ⟨same, rfl⟩ := served
  rw [same]
  exact later

theorem holds_setCache {c' : UtxoCache} {rest : Unit → Ingest α}
    (later : (rest ()).Holds lossy post ⟨s, c'⟩) :
    (setCache c' >>= rest).Holds lossy post ⟨s, c⟩ := by
  refine ⟨trivial, fun _ w served => ?_⟩
  obtain rfl : w = ⟨s, c'⟩ := served
  exact later

theorem holds_modifyCache {f : UtxoCache → UtxoCache} {rest : Unit → Ingest α}
    (later : (rest ()).Holds lossy post ⟨s, f c⟩) :
    (modifyCache f >>= rest).Holds lossy post ⟨s, c⟩ := by
  unfold modifyCache
  rw [Prog.bind_assoc]
  exact holds_getCache (holds_setCache later)

/-- A writer method that delivers its statements, followed by the rest of the program. -/
theorem holds_delivers {p : Io Unit} {qs : List Query} (delivers : Delivers p qs)
    {rest : Unit → Ingest α}
    (ok : ∀ g', execAll neo4j qs g = .ok g' → (rest ()).Holds lossy post ⟨⟨g', none⟩, c⟩)
    (failed : ∀ e sent g', sent <+: qs → execAll neo4j sent g = .ok g' →
      post (.error e) ⟨⟨g', none⟩, c⟩) :
    (io p >>= rest).Holds lossy post ⟨⟨g, none⟩, c⟩ := by
  have sent : (io p).Holds lossy (fun r w => Delivered qs g r w.store ∧ w.memory = c)
      ⟨⟨g, none⟩, c⟩ := World.holds_lift ((delivers g).mono fun r s done => ⟨done, rfl⟩)
  refine sent.bind (fun _ w done => ?_) fun e w done => ?_
  · obtain ⟨⟨g', ran, stored⟩, same⟩ := done
    obtain rfl : w = ⟨⟨g', none⟩, c⟩ := by rw [← stored, ← same]
    exact ok g' ran
  · obtain ⟨⟨sent, part, g', ran, stored⟩, same⟩ := done
    obtain rfl : w = ⟨⟨g', none⟩, c⟩ := by rw [← stored, ← same]
    exact failed e sent g' part ran

/-- A read that fails is passed on. -/
theorem holds_readGraph {failed : DbFault → WriterError} {rest : Graph → Io α}
    {after : Except WriterError α → Store neo4j → Prop}
    (ok : (rest s.committed).Holds (Session.lossy neo4j) after s)
    (lost : ∀ e, after (.error e) s) :
    (Neo4jWriter.readGraph failed >>= rest).Holds (Session.lossy neo4j) after s := by
  refine ⟨trivial, fun r t served => ?_⟩
  obtain ⟨rfl, rfl | ⟨fault, rfl⟩⟩ := lossy_read served
  · exact ok
  · exact lost (failed fault)

/-- Validation changes nothing, and succeeds only if the parent is right. -/
theorem holds_validateParentHash (block : Block) (height : ℕ) :
    (o.validateParentHash block height).Holds (Session.lossy neo4j)
      (fun r t => t = s ∧ (r = .ok () → ParentOk s.committed block height)) s := by
  unfold validateParentHash
  by_cases genesis : height = 0
  · rw [if_pos genesis]
    exact ⟨rfl, fun _ => Or.inl genesis⟩
  · rw [if_neg genesis]
    unfold Neo4jWriter.lookupBlockHash
    rw [Prog.bind_assoc]
    refine holds_readGraph ?_ fun e => ⟨rfl, fun ok => by cases ok⟩
    cases stored : s.committed.lookupBlockHash (height - 1) with
    | none =>
      refine ⟨rfl, fun _ => Or.inr fun hash found => ?_⟩
      rw [stored] at found
      cases found
    | some hash =>
      change Prog.Holds _ _ (if hash = block.header.prevBlockhash then pure ()
        else throw (.ReorgDetected height block.header.prevBlockhash hash) : Io Unit) s
      split
      · rename_i same
        refine ⟨rfl, fun _ => Or.inr fun hash' found => ?_⟩
        rw [stored] at found
        cases found
        exact same
      · exact ⟨rfl, fun ok => by cases ok⟩

theorem holds_lookupOutputsBatch (ids : List OutputId) :
    (Neo4jWriter.lookupOutputsBatch ids).Holds (Session.lossy neo4j) (fun r t => t = s ∧
      (r = .ok (s.committed.lookupOutputsBatch ids) ∨ ∃ e, r = .error e)) s := by
  unfold Neo4jWriter.lookupOutputsBatch
  by_cases empty : ids.isEmpty
  · rw [if_pos empty, List.isEmpty_iff.mp empty]
    exact ⟨rfl, Or.inl rfl⟩
  · rw [if_neg empty]
    exact holds_readGraph ⟨rfl, Or.inl rfl⟩ fun e => ⟨rfl, Or.inr ⟨e, rfl⟩⟩

/-- The lookup of a block's inputs answers as it does where no call is lost, or fails. -/
theorem holds_getManyWithFallback (coherent : Coherent g c) (keys : List UtxoKey) :
    (getManyWithFallback keys).Holds lossy (fun r w =>
      (r, w) = (getManyWithFallback keys).run World.handle ⟨⟨g, none⟩, c⟩ ∨
        ∃ e, r = .error e ∧ w.store = ⟨g, none⟩ ∧ Coherent g w.memory) ⟨⟨g, none⟩, c⟩ := by
  have first := UtxoCache.lookedUp_getMany c keys
  unfold getManyWithFallback
  rw [Prog.run_bind_ok (run_getCache _)]
  refine holds_getCache ?_
  generalize c.getMany keys = looked at first ⊢
  obtain ⟨c₁, found, misses⟩ := looked
  dsimp only
  rw [Prog.run_bind_ok (run_setCache ..)]
  refine holds_setCache ?_
  cases hits : misses.isEmpty with
  | true =>
    simp only [if_true]
    exact Or.inl rfl
  | false =>
    have coherent₁ : Coherent g c₁.recordNeo4jFallback := coherent.of_peek fun k v present =>
      Or.inl ((first.peek k).symm.trans present)
    simp only [Bool.false_eq_true, if_false]
    rw [Prog.run_bind_ok (run_setCache ..), Prog.run_bind, run_io,
      Neo4jWriter.run_lookupOutputsBatch]
    refine holds_setCache ?_
    have read : (io (Neo4jWriter.lookupOutputsBatch (misses.map UtxoKey.toOutputId))).Holds lossy
        (fun r w => w = ⟨⟨g, none⟩, c₁.recordNeo4jFallback⟩ ∧
          (r = .ok (g.lookupOutputsBatch (misses.map UtxoKey.toOutputId)) ∨ ∃ e, r = .error e))
        ⟨⟨g, none⟩, c₁.recordNeo4jFallback⟩ :=
      World.holds_lift ((holds_lookupOutputsBatch (misses.map UtxoKey.toOutputId)).mono
        fun r t done => ⟨by rw [done.1], done.2⟩)
    refine read.bind (fun results w done => ?_) fun e w done => ?_
    · obtain ⟨rfl, answer | ⟨e, refused⟩⟩ := done
      · cases answer
        dsimp only
        rw [Prog.run_bind_ok (run_setCache ..)]
        refine holds_setCache ?_
        split
        · exact Or.inl rfl
        · exact Or.inl rfl
      · cases refused
    · obtain ⟨rfl, -⟩ := done
      exact Or.inr ⟨e, rfl, rfl, coherent₁⟩

/-- If it succeeds, every key is stored. -/
theorem holds_lookup (coherent : Coherent g c) (keys : List UtxoKey) :
    (getManyWithFallback keys).Holds lossy (fun r w => w.store = ⟨g, none⟩ ∧
      Coherent g w.memory ∧ ∀ found, r = .ok found →
        (∀ k ∈ keys, g.outputs.Has k) ∧ found = storedAmong g keys) ⟨⟨g, none⟩, c⟩ := by
  obtain ⟨answer, found, c', answered, ran, complete, incomplete⟩ := run_getManyWithFallback
    none keys (g := g) coherent fun _ _ found => found
  refine (holds_getManyWithFallback coherent keys).mono fun r w done => ?_
  rcases done with same | ⟨e, rfl, stored, coherent'⟩
  · rw [ran] at same
    obtain ⟨rfl, rfl⟩ := Prod.mk.inj same
    refine ⟨rfl, answered.cache, fun found' success => ?_⟩
    by_cases known : ∀ k ∈ keys, (c.peek k).isSome ∨ g.outputs.Has k
    · have all := complete known
      rw [success] at all
      cases all
      exact ⟨fun k mem => (known k mem).elim coherent.has id, answered.eq_storedAmong⟩
    · obtain ⟨e, refused⟩ := incomplete known
      rw [refused] at success
      cases success
  · exact ⟨stored, coherent', fun found impossible => by cases impossible⟩

/-! ## The steps of a block -/

variable {rest : Unit → Ingest α}

theorem holds_ingestOutputsAndCache {rest : List OutputData → Ingest α}
    (ok : (rest (o.outputRows [b])).Holds lossy post
      ⟨⟨o.putOutputs b g, none⟩, populateCache (o.outputRows [b]) c⟩)
    (failed : ∀ e sent g', sent <+: o.writer.outputQueries (o.outputRows [b]) →
      execAll neo4j sent g = .ok g' →
      post (.error e) ⟨⟨g', none⟩, populateCache (o.outputRows [b]) c⟩) :
    (o.ingestOutputsAndCache b.block >>= rest).Holds lossy post ⟨⟨g, none⟩, c⟩ := by
  unfold ingestOutputsAndCache
  rw [← outputRows_singleton, Prog.bind_assoc]
  have sent : ((io (o.writer.writeOutputs (o.outputRows [b]))).attempt).Holds lossy
      (fun r w => ∃ written, r = .ok written ∧
        Delivered (o.writer.outputQueries (o.outputRows [b])) g written w.store ∧ w.memory = c)
      ⟨⟨g, none⟩, c⟩ :=
    Prog.Holds.attempt (World.holds_lift ((Neo4jWriter.delivers_writeOutputs g).mono
      fun r s done => ⟨r, rfl, done, rfl⟩))
  refine sent.bind (fun written w done => ?_) fun e w done => ?_
  · obtain ⟨_, same, delivered, memory⟩ := done
    cases same
    obtain ⟨s, c'⟩ := w
    obtain rfl : c' = c := memory
    rw [Prog.bind_assoc]
    refine holds_modifyCache ?_
    cases written with
    | ok _ =>
      obtain ⟨g', ran, rfl⟩ := delivered
      rw [Neo4jWriter.execAll_outputQueries] at ran
      cases ran
      exact ok
    | error e =>
      obtain ⟨sent, part, g', ran, rfl⟩ := delivered
      exact failed e sent g' part ran
  · obtain ⟨_, impossible, -⟩ := done
    cases impossible

theorem holds_ingestTransactionsWithAmounts {rest : List PerformsData → Ingest α}
    (coherent : Coherent g c) (ok : ∀ res c', (∀ k ∈ spentKeys [b], g.outputs.Has k) →
      res = storedAmong g (spentKeys [b]) → Coherent g c' →
      (rest (performsRows res [b])).Holds lossy post
        ⟨⟨(transactionRows res [b]).foldl (Graph.putTransaction mergeLink) g, none⟩, c'⟩)
    (missing : ∀ e c', Coherent g c' → post (.error e) ⟨⟨g, none⟩, c'⟩)
    (failed : ∀ e sent g' c', Coherent g c' →
      sent <+: o.transactionQueries (storedAmong g (spentKeys [b])) b →
      execAll neo4j sent g = .ok g' → post (.error e) ⟨⟨g', none⟩, c'⟩) :
    (o.ingestTransactionsWithAmounts b.block b.height >>= rest).Holds lossy post
      ⟨⟨g, none⟩, c⟩ := by
  unfold ingestTransactionsWithAmounts
  rw [← spentKeys_singleton, Prog.bind_assoc]
  refine (holds_lookup coherent _).bind (fun found w done => ?_) fun e w done => ?_
  · obtain ⟨stored, coherent', complete⟩ := done
    obtain ⟨s, c'⟩ := w
    obtain rfl : s = ⟨g, none⟩ := stored
    obtain ⟨all, rfl⟩ := complete found rfl
    have performs : b.block.txdata.flatMap (performsOf (storedAmong g (spentKeys [b]))) =
        performsRows (storedAmong g (spentKeys [b])) [b] := by
      rw [performsRows, txsOf_singleton]
    rw [← transactionRows_singleton, performs, Neo4jWriter.writeTransactions, Prog.bind_assoc]
    refine holds_delivers (Neo4jWriter.delivers_executeBatched repeatable_createTransactions)
      (fun g' ran => ?_) fun e sent g' part ran => failed e sent g' c' coherent' part ran
    rw [execAll_batchQueries_total (fun _ _ => rfl)] at ran
    cases ran
    exact ok _ c' all rfl coherent'
  · obtain ⟨s, c'⟩ := w
    obtain ⟨rfl, coherent', -⟩ := done
    exact missing e c' coherent'

end Holds

theorem delivers_writePerformsIfAny (performs : List PerformsData) :
    Delivers (o.writePerformsIfAny performs)
      (o.writer.batchQueries .createPerformsBulk performs) := by
  unfold writePerformsIfAny
  by_cases empty : performs.isEmpty
  · rw [if_pos empty, List.isEmpty_iff.mp empty]
    exact .done
  · rw [if_neg empty]
    exact Neo4jWriter.delivers_executeBatched repeatable_createPerformsBulk

theorem delivers_writeBenefitsToIfAny (benefits : List BenefitsToData) :
    Delivers (o.writeBenefitsToIfAny benefits)
      (o.writer.batchQueries .createBenefitsToBulk benefits) := by
  unfold writeBenefitsToIfAny
  by_cases empty : benefits.isEmpty
  · rw [if_pos empty, List.isEmpty_iff.mp empty]
    exact .done
  · rw [if_neg empty]
    exact Neo4jWriter.delivers_executeBatched repeatable_createBenefitsToBulk

theorem delivers_writeBlock (b : LocatedBlock) :
    Delivers (o.writer.writeBlocks [.fromBlock b.block b.height]) [blockQuery b] := by
  have one : chunks o.writer.batchSize [BlockData.fromBlock b.block b.height] =
      [[.fromBlock b.block b.height]] := chunks_singleton o.writer.batchSize_pos _
  unfold Neo4jWriter.writeBlocks Neo4jWriter.executeBatched
  rw [one]
  intro g
  refine ⟨trivial, fun answer s served => ?_⟩
  rcases served with served | ⟨fault, u, failed, -⟩
  · cases served
    exact ((Neo4jWriter.delivers_runWithRetry (repeatable_createBlocks _)).seq .done) g
  · cases failed

/-! ## A block in the making -/

/-- What the inputs of a block are found to be once its outputs are stored. -/
abbrev foundFor (o : IngestionOrchestrator) (b : LocatedBlock) (g₁ : Graph) : Found :=
  storedAmong (o.putOutputs b g₁) (spentKeys [b])

/-- The graph has the block's node, and finishing it leaves what it does without other parts. -/
def Underway (o : IngestionOrchestrator) (b : LocatedBlock) (offset : Option ℕ) (g₁ g : Graph) :
    Prop :=
  o.finished (o.foundFor b g₁) b offset g = o.finished (o.foundFor b g₁) b offset g₁

/-- The block is not begun, or underway, and the cache is right for either. -/
structure Attempted (o : IngestionOrchestrator) (b : LocatedBlock) (offset : Option ℕ)
    (g g₁ : Graph) (w : World neo4j UtxoCache) : Prop where
  free : w.store.active = none
  graph : w.store.committed = g ∨ o.Underway b offset g₁ w.store.committed
  cache : Coherent (o.putOutputs b g₁) w.memory

theorem Underway.blocks (underway : o.Underway b offset g₁ x) :
    x.blocks = g₁.blocks ∧ x.nextBlock = g₁.nextBlock := by
  obtain ⟨blocks, next⟩ := blocks_finishBlock o (o.foundFor b g₁) b offset x
  obtain ⟨blocks₁, next₁⟩ := blocks_finishBlock o (o.foundFor b g₁) b offset g₁
  exact ⟨blocks.symm.trans ((congrArg Graph.blocks underway).trans blocks₁),
    next.symm.trans ((congrArg Graph.nextBlock underway).trans next₁)⟩

theorem Underway.coins (underway : o.Underway b offset g₁ x) :
    (o.putOutputs b x).outputs = (o.putOutputs b g₁).outputs ∧
      (o.putOutputs b x).lockedTo = (o.putOutputs b g₁).lockedTo := by
  obtain ⟨outputs, locks⟩ := coins_finishBlock o (o.foundFor b g₁) b offset x
  obtain ⟨outputs₁, locks₁⟩ := coins_finishBlock o (o.foundFor b g₁) b offset g₁
  exact ⟨outputs.symm.trans ((congrArg Graph.outputs underway).trans outputs₁),
    locks.symm.trans ((congrArg Graph.lockedTo underway).trans locks₁)⟩

/-- Once the block is underway, its inputs are found to be the same. -/
theorem Underway.found (underway : o.Underway b offset g₁ x) :
    o.foundFor b x = o.foundFor b g₁ := by
  obtain ⟨outputs, locks⟩ := underway.coins
  funext k
  rw [foundFor, foundFor, storedAmong, storedAmong, resolve_congr outputs locks]

/-- Whether the block is begun or not, its node can be written. -/
theorem begin_again (parent : ParentOk g b.block b.height)
    (created : (blockQuery b).exec g = .ok g₁) (graph : x = g ∨ o.Underway b offset g₁ x) :
    ParentOk x b.block b.height ∧ ∃ x₁, (blockQuery b).exec x = .ok x₁ ∧
      o.Underway b offset g₁ x₁ := by
  rcases graph with rfl | underway
  · exact ⟨parent, g₁, created, rfl⟩
  · obtain ⟨blocks, next⟩ := underway.blocks
    exact ⟨parentOk_again parent created blocks, x,
      Graph.exec_createBlocks_one_again created blocks next, underway⟩

/-- **An attempt.** However its calls fare, it leaves the block not begun or underway, and it
succeeds only where all inputs are stored and with the whole block. -/
theorem holds_ingestBlock {w : World neo4j UtxoCache} (faithful : o.Faithful U (o.putOutputs b g₁))
    (denoted : Denotes U (txsOf [b])) (parent : ParentOk g b.block b.height)
    (created : (blockQuery b).exec g = .ok g₁) (attempted : o.Attempted b offset g g₁ w) :
    (o.ingestBlock b.block b.height b.fileName offset).Holds lossy (fun r w' =>
      o.Attempted b offset g g₁ w' ∧ (r = .ok () →
        (∀ k ∈ spentKeys [b], (o.putOutputs b g₁).outputs.Has k) ∧
          w'.store.committed = o.finished (o.foundFor b g₁) b offset g₁)) w := by
  obtain ⟨⟨x, active⟩, c⟩ := w
  obtain ⟨rfl, graph, coherent⟩ := attempted
  obtain ⟨parent', x₁, created', underway⟩ := begin_again parent created graph
  -- A failure after some of the block's statements.
  have stops : ∀ {e : WriterError} {qs sent : List Query} {y z : Graph} {c : UtxoCache},
      o.Underway b offset g₁ y → (∀ q ∈ qs, o.PartOf (o.foundFor b g₁) b q) → sent <+: qs →
      execAll neo4j sent y = .ok z → Coherent (o.putOutputs b g₁) c →
      o.Attempted b offset g g₁ ⟨⟨z, none⟩, c⟩ ∧
      ((Except.error e : Except WriterError Unit) = .ok () →
        (∀ k ∈ spentKeys [b], (o.putOutputs b g₁).outputs.Has k) ∧
          z = o.finished (o.foundFor b g₁) b offset g₁) := by
    intro e qs sent y z c underway parts part ran coherent
    have same := finished_execAll offset
      (fun q mem => parts q (part.subset mem)) ran
    exact ⟨⟨rfl, Or.inr (same.trans underway), coherent⟩, fun impossible => by cases impossible⟩
  unfold ingestBlock ingestBlockNode
  have validated : (io (o.validateParentHash b.block b.height)).Holds lossy
      (fun _ w => w = ⟨⟨x, none⟩, c⟩) ⟨⟨x, none⟩, c⟩ :=
    World.holds_lift ((holds_validateParentHash b.block b.height).mono fun _ _ done => by
      rw [done.1])
  refine validated.bind (fun _ w same => ?_) fun e w same => ?_
  swap
  · subst same
    exact ⟨⟨rfl, graph, coherent⟩, fun impossible => by cases impossible⟩
  subst same
  refine holds_delivers (delivers_writeBlock b) (fun x' ran => ?_) fun e sent x' part ran => ?_
  swap
  · refine ⟨⟨rfl, ?_, coherent⟩, fun impossible => by cases impossible⟩
    rcases List.prefix_cons_iff.mp part with rfl | ⟨rest, rfl, none⟩
    · cases ran
      exact graph
    · obtain rfl := List.prefix_nil.mp none
      rw [Neo4jWriter.execAll_one created'] at ran
      cases ran
      exact Or.inr underway
  rw [Neo4jWriter.execAll_one created'] at ran
  cases ran
  have filled := coherent_populateCache_again faithful denoted coherent
  refine holds_ingestOutputsAndCache ?_ fun e sent z part ran =>
    stops underway partOf_outputQueries part ran filled
  obtain ⟨outputs, locks⟩ := underway.coins
  have found := underway.found
  have stored : o.Underway b offset g₁ (o.putOutputs b x₁) :=
    (finished_execAll offset partOf_outputQueries
      (Neo4jWriter.execAll_outputQueries o.writer (o.outputRows [b]) x₁)).trans underway
  refine holds_ingestTransactionsWithAmounts (filled.congr outputs locks) ?_
    (fun e c' coherent' => stops stored partOf_outputQueries List.nil_prefix rfl
      (coherent'.congr outputs.symm locks.symm)) fun e sent z c' coherent' part ran => ?_
  swap
  · rw [show storedAmong (o.putOutputs b x₁) (spentKeys [b]) = _ from found] at part
    exact stops stored (partOf_batchQueries fun rows inside => inside) part ran
      (coherent'.congr outputs.symm locks.symm)
  intro res c' all same coherent'
  obtain rfl : res = o.foundFor b g₁ := same.trans found
  have coherent₁ : Coherent (o.putOutputs b g₁) c' := coherent'.congr outputs.symm locks.symm
  have benefits : b.block.txdata.flatMap o.benefitsOf = o.benefitsRows [b] := by
    rw [benefitsRows, txsOf_singleton]
  have step₁ := (finished_foldl (fun g _ mem => finished_putTransaction g mem)
    (List.Subset.refl (transactionRows (o.foundFor b g₁) [b])) _).trans stored
  refine holds_delivers (Neo4jWriter.delivers_executeBatched repeatable_createHasOutput)
    (fun y ran => ?_) fun e sent z part ran =>
      stops step₁ (partOf_batchQueries fun rows inside => inside) part ran coherent₁
  rw [execAll_batchQueries_total (fun _ _ => rfl)] at ran
  cases ran
  have step₂ := (finished_foldl (fun g _ mem => finished_putHasOutput g mem)
    (List.Subset.refl (o.outputRows [b])) _).trans step₁
  unfold ingestInputs
  rw [← inputRows_singleton]
  refine holds_delivers (Neo4jWriter.delivers_executeBatched repeatable_createInputs)
    (fun y ran => ?_) fun e sent z part ran =>
      stops step₂ (partOf_batchQueries fun rows inside => inside) part ran coherent₁
  rw [execAll_batchQueries_total (fun _ _ => rfl)] at ran
  cases ran
  have step₃ := (finished_foldl (fun g _ mem => finished_putInput g mem)
    (List.Subset.refl (inputRows [b])) _).trans step₂
  unfold writeSimplifiedLayerRust
  rw [benefits]
  dsimp only
  rw [Prog.bind_assoc]
  refine holds_delivers (delivers_writePerformsIfAny _) (fun y ran => ?_) fun e sent z part ran =>
    stops step₃ (partOf_batchQueries fun rows inside => inside) part ran coherent₁
  rw [execAll_batchQueries_total (fun _ _ => rfl)] at ran
  cases ran
  have step₄ := (finished_foldl (fun g _ mem => finished_mergePerforms g mem)
    (List.Subset.refl (performsRows (o.foundFor b g₁) [b])) _).trans step₃
  refine holds_delivers (delivers_writeBenefitsToIfAny _) (fun y ran => ?_) fun e sent z part ran =>
    stops step₄ (partOf_batchQueries fun rows inside => inside) part ran coherent₁
  rw [execAll_batchQueries_total (fun _ _ => rfl)] at ran
  cases ran
  have step₅ := (finished_foldl (fun g _ mem => finished_mergeBenefitsTo g mem)
    (List.Subset.refl (o.benefitsRows [b])) _).trans step₄
  unfold removeSpentOutputsFromCache
  refine holds_modifyCache ?_
  have cleaned : Coherent (o.putOutputs b g₁)
      (c'.removeMany (b.block.txdata.flatMap Transaction.inputKeys)) := by
    refine coherent₁.of_peek fun k v present => ?_
    rw [UtxoCache.peek_removeMany] at present
    split at present
    · cases present
    · exact Or.inl present
  have last : ∀ q ∈ [Query.updateCheckpoint (blockCheckpoint b offset)],
      o.PartOf (o.foundFor b g₁) b q := fun q mem => by
    cases List.mem_singleton.mp mem
    trivial
  refine World.holds_lift ((Neo4jWriter.delivers_updateCheckpoint _).mono fun r s done => ?_)
  cases r with
  | ok _ =>
    obtain ⟨z, ran, rfl⟩ := done
    have step₆ := (finished_execAll offset last ran).trans step₅
    refine ⟨⟨rfl, Or.inr step₆, cleaned⟩, fun _ => ⟨fun k mem => outputs ▸ all k mem, ?_⟩⟩
    cases ran
    exact underway
  | error e =>
    obtain ⟨sent, part, z, ran, rfl⟩ := done
    exact stops step₅ last part ran cleaned

/-- Where all inputs are stored, an attempt in which nothing is lost succeeds. -/
theorem Attempted.run {w : World neo4j UtxoCache} (attempted : o.Attempted b offset g g₁ w)
    (faithful : o.Faithful U (o.putOutputs b g₁)) (denoted : Denotes U (txsOf [b]))
    (parent : ParentOk g b.block b.height) (created : (blockQuery b).exec g = .ok g₁)
    (complete : ∀ k ∈ spentKeys [b], (o.putOutputs b g₁).outputs.Has k) :
    ∃ c', (o.ingestBlock b.block b.height b.fileName offset).run World.handle w =
      (.ok (), ⟨⟨o.finished (o.foundFor b g₁) b offset g₁, none⟩, c'⟩) := by
  obtain ⟨⟨x, active⟩, c⟩ := w
  obtain ⟨rfl, graph, coherent⟩ := attempted
  obtain ⟨parent', x₁, created', underway⟩ := begin_again parent created graph
  obtain ⟨outputs, locks⟩ := underway.coins
  have filled := (coherent_populateCache_again faithful denoted coherent).congr outputs locks
  obtain ⟨r, found, c', answered, looked, all, -⟩ := run_getManyWithFallback none (spentKeys [b])
    (g := o.putOutputs b x₁) filled fun _ _ found => found
  rw [all fun k mem => Or.inr (outputs ▸ complete k mem), answered.eq_storedAmong] at looked
  rw [show storedAmong (o.putOutputs b x₁) (spentKeys [b]) = _ from underway.found] at looked
  have ran := run_ingestBlock_ok offset parent' created' looked
  rw [show o.finishBlock (o.foundFor b g₁) b offset (o.putOutputs b x₁) = _ from underway] at ran
  exact ⟨_, ran⟩

/-- A block that cannot be begun changes nothing. -/
theorem holds_ingestBlock_unbegun (unbegun : ParentOk g b.block b.height →
    ∀ g₁, (blockQuery b).exec g ≠ .ok g₁) (c : UtxoCache) :
    (o.ingestBlock b.block b.height b.fileName offset).Holds lossy
      (fun r w => w.store = ⟨g, none⟩ ∧ r ≠ .ok ()) ⟨⟨g, none⟩, c⟩ := by
  unfold ingestBlock ingestBlockNode
  have validated : (io (o.validateParentHash b.block b.height)).Holds lossy
      (fun r w => w = ⟨⟨g, none⟩, c⟩ ∧ (r = .ok () → ParentOk g b.block b.height))
      ⟨⟨g, none⟩, c⟩ :=
    World.holds_lift ((holds_validateParentHash b.block b.height).mono fun _ _ done =>
      ⟨by rw [done.1], done.2⟩)
  refine validated.bind (fun _ w done => ?_) fun e w done => ?_
  · obtain ⟨rfl, valid⟩ := done
    have parent := valid rfl
    refine holds_delivers (delivers_writeBlock b) (fun g₁ ran => ?_) fun e sent x part ran => ?_
    · rw [execAll_singleton (E := neo4j)] at ran
      exact absurd ran (unbegun parent g₁)
    · refine ⟨?_, fun impossible => by cases impossible⟩
      rcases List.prefix_cons_iff.mp part with rfl | ⟨rest, rfl, none⟩
      · cases ran
        rfl
      · obtain rfl := List.prefix_nil.mp none
        rw [execAll_singleton (E := neo4j)] at ran
        exact absurd ran (unbegun parent x)
  · obtain ⟨rfl, -⟩ := done
    exact ⟨rfl, fun impossible => by cases impossible⟩

/-- **At least once.** Over a graph built by ingestion, with a cache coherent with it,
`ingest_block` is called any number of times and fails every time, calls of the database or their
answers being lost. Then a call in which nothing is lost succeeds iff it would have at first; and
once a call succeeds, the database is what it would have been, and the cache is coherent with it. -/
theorem ingestBlock_at_least_once (reached : Reachable o U g) (denoted : Denotes U (txsOf [b]))
    (coherent : Coherent g c) {w : World neo4j UtxoCache}
    (tried : Prog.Tried lossy (o.ingestBlock b.block b.height b.fileName offset) ⟨⟨g, none⟩, c⟩ w) :
    let run w := (o.ingestBlock b.block b.height b.fileName offset).run World.handle w
    ((run w).1 = .ok () ↔ (run ⟨⟨g, none⟩, c⟩).1 = .ok ()) ∧
      ∀ w', (o.ingestBlock b.block b.height b.fileName offset).Ends lossy w (.ok ()) w' →
        (run ⟨⟨g, none⟩, c⟩).1 = .ok () ∧ w'.store = (run ⟨⟨g, none⟩, c⟩).2.store ∧
          Coherent w'.store.committed w'.memory := by
  intro run
  have served : ∀ w, (o.ingestBlock b.block b.height b.fileName offset).Ends lossy w (run w).1
      (run w).2 := fun w => World.ends_handle _ w
  by_cases begun : ∃ g₁, ParentOk g b.block b.height ∧ (blockQuery b).exec g = .ok g₁
  · obtain ⟨g₁, parent, created⟩ := begun
    obtain ⟨outputs, locks⟩ := coins_blockQuery created
    have faithful := faithful_reachable reached
    have faithful₁ := (faithful.congr outputs locks).putOutputs denoted
    have more : ∀ k, g.outputs.Has k → (o.putOutputs b g₁).outputs.Has k := fun k has => by
      rw [putOutputs, Graph.foldl_putOutput_eq, Table.has_foldl_upsert, outputs]
      exact Or.inr has
    have first : o.Attempted b offset g g₁ ⟨⟨g, none⟩, c⟩ :=
      ⟨rfl, Or.inl rfl, faithful.coherent faithful₁ more coherent⟩
    have attempt := fun w (attempted : o.Attempted b offset g g₁ w) =>
      holds_ingestBlock faithful₁ denoted parent created attempted
    have attempted : o.Attempted b offset g g₁ w := tried.keeps
      (fun s e t here failed => ((attempt s here).ends failed).1) first
    -- A success in any way says that the inputs are stored, and then the first would have been one.
    have success : ∀ w', o.Attempted b offset g g₁ w' →
        (∀ k ∈ spentKeys [b], (o.putOutputs b g₁).outputs.Has k) → (run w').1 = .ok () ∧
          (run w').2.store = ⟨o.finished (o.foundFor b g₁) b offset g₁, none⟩ := by
      intro w' attempted complete
      obtain ⟨c', ran⟩ := attempted.run faithful₁ denoted parent created complete
      exact ⟨congrArg Prod.fst ran, congrArg (fun r => r.2.store) ran⟩
    refine ⟨⟨fun ok => ?_, fun ok => ?_⟩, fun w' ends => ?_⟩
    · have complete := (((attempt w attempted).ends (served w)).2 ok).1
      exact (success _ first complete).1
    · have complete := (((attempt _ first).ends (served _)).2 ok).1
      exact (success w attempted complete).1
    · obtain ⟨⟨free, -, cached⟩, whole⟩ := (attempt w attempted).ends ends
      obtain ⟨complete, graph⟩ := whole rfl
      obtain ⟨ok, stored⟩ := success _ first complete
      obtain ⟨outputs', locks'⟩ := coins_finishBlock o (o.foundFor b g₁) b offset g₁
      have store : w'.store = ⟨o.finished (o.foundFor b g₁) b offset g₁, none⟩ := by
        rw [← graph, ← free]
      refine ⟨ok, store.trans stored.symm, ?_⟩
      rw [graph]
      exact cached.congr outputs' locks'
  · have unbegun : ParentOk g b.block b.height → ∀ g₁, (blockQuery b).exec g ≠ .ok g₁ :=
      fun parent g₁ created => begun ⟨g₁, parent, created⟩
    have attempt : ∀ w : World neo4j UtxoCache, w.store = ⟨g, none⟩ →
        ∀ r w', (o.ingestBlock b.block b.height b.fileName offset).Ends lossy w r w' →
          w'.store = ⟨g, none⟩ ∧ r ≠ .ok () := by
      rintro ⟨_, c⟩ rfl r w' ends
      exact (holds_ingestBlock_unbegun unbegun c).ends ends
    have idle : w.store = ⟨g, none⟩ := tried.keeps
      (fun s e t here failed => (attempt s here _ t failed).1) rfl
    refine ⟨iff_of_false (attempt w idle _ _ (served w)).2
      (attempt _ rfl _ _ (served _)).2, fun w' ends => ?_⟩
    exact absurd rfl (attempt w idle _ w' ends).2

end IngestionOrchestrator

/-- The graph of the first block. -/
def Sample.begun : Graph :=
  (((Call.ingestBlock Sample.first none).program (Sample.orchestrator 0)).run World.handle
    ⟨⟨.empty, none⟩, .new 1⟩).2.store.committed

/-- The call for the second block. -/
def Sample.secondCall : Ingest Unit :=
  (Sample.orchestrator 0).ingestBlock Sample.second.block 1 "blk00000.dat" none

/-- The block is written, and then all answers to the statement for its outputs are lost. -/
def Sample.unanswered : List (Fate DbFault) :=
  List.replicate 3 .served ++ List.replicate 4 (.unanswered .elapsed)

/-- What the call leaves after the outputs were written four times in vain. -/
def Sample.left : World neo4j UtxoCache :=
  (Sample.secondCall.run World.handleFated
    ⟨⟨⟨Sample.begun, none⟩, .new 1000⟩, Sample.unanswered⟩).2.state

theorem tried_second : Prog.Tried IngestionOrchestrator.lossy Sample.secondCall
    ⟨⟨Sample.begun, none⟩, .new 1000⟩ Sample.left := by
  have failed : (Sample.secondCall.run World.handleFated
      ⟨⟨⟨Sample.begun, none⟩, .new 1000⟩, Sample.unanswered⟩).1.isOk = false := by
    decide +kernel
  exact Prog.tried_run Fated.state World.serves_handleFated failed

theorem ingestBlock_at_least_once_second :
    let run w := Sample.secondCall.run World.handle w
    ((run Sample.left).1 = .ok () ↔ (run ⟨⟨Sample.begun, none⟩, .new 1000⟩).1 = .ok ()) ∧
      ∀ w', Sample.secondCall.Ends IngestionOrchestrator.lossy Sample.left (.ok ()) w' →
        (run ⟨⟨Sample.begun, none⟩, .new 1000⟩).1 = .ok () ∧
          w'.store = (run ⟨⟨Sample.begun, none⟩, .new 1000⟩).2.store ∧
          Coherent w'.store.committed w'.memory := by
  refine IngestionOrchestrator.ingestBlock_at_least_once (U := Sample.denotation)
    (b := Sample.second)
    (.single ⟨_, .ingestBlock Sample.first none, .new 1, ⟨rfl, rfl⟩, ?_, rfl⟩) ?_
    (coherent_new _ _) tried_second
  · show ∀ tx ∈ txsOf [Sample.first], _
    decide
  · show ∀ tx ∈ txsOf [Sample.second], _
    decide

end ChainGraph
