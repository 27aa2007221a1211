import ChainGraph.Laws.Following

/-!
# Block files and a node in turn

Where a block was read from is in the checkpoint and nowhere else in the database. A chain under
other source names is therefore mirrored by the same graphs, and processes that read block files
and processes in live mode can take turns on one database.
-/

namespace ChainGraph

open Foundation

/-- The blocks with other names for their sources. -/
def renamed (source : LocatedBlock → String) (chain : List LocatedBlock) : List LocatedBlock :=
  chain.map fun b => { b with fileName := source b }

section Renamed

variable {source : LocatedBlock → String} {U : Denotation} {chain : List LocatedBlock}

@[simp] theorem length_renamed : (renamed source chain).length = chain.length := List.length_map ..

theorem take_renamed (n : ℕ) : (renamed source chain).take n = renamed source (chain.take n) :=
  (List.map_take ..).symm

@[simp] theorem txsOf_renamed : txsOf (renamed source chain) = txsOf chain := by
  simp only [txsOf, renamed, List.flatMap_map]

@[simp] theorem blockRows_renamed : blockRows (renamed source chain) = blockRows chain := by
  simp only [blockRows, renamed, List.map_map]
  rfl

@[simp] theorem transactionRows_renamed (res : Found) :
    transactionRows res (renamed source chain) = transactionRows res chain := by
  simp only [transactionRows, renamed, List.flatMap_map]

@[simp] theorem inputRows_renamed : inputRows (renamed source chain) = inputRows chain := by
  simp only [inputRows, renamed, List.flatMap_map]

@[simp] theorem inclusions_renamed : inclusions (renamed source chain) = inclusions chain := by
  simp only [inclusions, renamed, List.flatMap_map]

@[simp] theorem performsRows_renamed (res : Found) :
    performsRows res (renamed source chain) = performsRows res chain := by
  unfold performsRows
  rw [txsOf_renamed]

theorem Valid.renamed (source : LocatedBlock → String) (valid : Valid U chain) :
    Valid U (renamed source chain) where
  genesis b head := by
    rw [ChainGraph.renamed, List.head?_map] at head
    obtain ⟨b', first, rfl⟩ := Option.map_eq_some_iff.mp head
    exact valid.genesis b' first
  adjacent := (List.isChain_map _).mpr valid.adjacent
  linked := (List.isChain_map _).mpr valid.linked
  txids := by
    rw [txsOf_renamed]
    exact valid.txids
  spends := by
    rw [txsOf_renamed]
    exact valid.spends
  hashes := by
    rw [ChainGraph.renamed, List.map_map]
    exact valid.hashes
  denoted := by
    rw [txsOf_renamed]
    exact valid.denoted
  filled b mem := by
    obtain ⟨b', inside, rfl⟩ := List.mem_map.mp mem
    exact valid.filled b' inside
  word := by
    rw [length_renamed]
    exact valid.word

namespace IngestionOrchestrator

variable {o : IngestionOrchestrator} {g g' : Graph}

@[simp] theorem outputRows_renamed :
    o.outputRows (renamed source chain) = o.outputRows chain := by
  unfold outputRows
  rw [txsOf_renamed]

@[simp] theorem benefitsRows_renamed :
    o.benefitsRows (renamed source chain) = o.benefitsRows chain := by
  unfold benefitsRows
  rw [txsOf_renamed]

/-- Growth does not depend on where the blocks were read from. -/
theorem Grown.renamed {res : Found} (h : o.Grown res g (renamed source chain) g') :
    o.Grown res g chain g' where
  blocks := by simpa using h.blocks
  nextBlock := by simpa using h.nextBlock
  transactions := by simpa [putTransactions] using h.transactions
  outputs := by simpa [putOutputNodes] using h.outputs
  inputs := by simpa using h.inputs
  addresses := by simpa [mentioned] using h.addresses
  includedIn := by simpa using h.includedIn
  hasInput := by simpa [ownedInputs] using h.hasInput
  hasOutput := by simpa [ownedOutputs] using h.hasOutput
  lockedTo := by simpa [locks] using h.lockedTo
  spends := by simpa [spendings] using h.spends
  performs := by simpa using h.performs
  benefitsTo := by simpa using h.benefitsTo

/-- The graph of a chain, up to its checkpoint, does not depend on where the blocks were read
from. -/
theorem bare_graphOf_renamed (valid : Valid U chain) :
    (o.graphOf (renamed source chain)).bare = (o.graphOf chain).bare := by
  have grown : o.Grown (o.valueOf U) (o.graphOf []) chain (o.graphOf ([] ++ chain)) :=
    grown_graphOf valid
  have grown' : o.Grown (o.valueOf U) (o.graphOf []) (renamed source chain)
      (o.graphOf ([] ++ renamed source chain)) := grown_graphOf (valid.renamed source)
  exact grown'.renamed.bare_congr grown rfl

theorem Mirrors.renamed (h : o.Mirrors chain g) (valid : Valid U chain) :
    o.Mirrors (renamed source chain) g where
  sound := h.sound
  bare := h.bare.trans (bare_graphOf_renamed valid).symm
  fresh empty := h.fresh (List.map_eq_nil_iff.mp empty)
  height tip length := h.height tip (length_renamed.symm.trans length)

theorem Mirrors.of_renamed (h : o.Mirrors (ChainGraph.renamed source chain) g)
    (valid : Valid U chain) : o.Mirrors chain g where
  sound := h.sound
  bare := h.bare.trans (bare_graphOf_renamed valid)
  fresh empty := h.fresh (List.map_eq_nil_iff.mpr empty)
  height tip length := h.height tip (length_renamed.trans length)

theorem adaptiveChunks_renamed : o.adaptiveChunks (renamed source chain) =
    (o.adaptiveChunks chain).map (renamed source) := by
  unfold adaptiveChunks
  have memories : (renamed source chain).map (fun b => estimateBlockMemory b.block) =
      chain.map fun b => estimateBlockMemory b.block := by
    rw [renamed, List.map_map]
    rfl
  rw [memories, List.map_map]
  refine List.map_congr_left fun range _ => ?_
  simp only [Function.comp_apply, slice, renamed, List.map_take, List.map_drop]

theorem Roomy.renamed {cap : Fin numShards → ℕ} (room : o.Roomy cap chain) :
    o.Roomy cap (renamed source chain) := by
  intro chunk mem k
  rw [adaptiveChunks_renamed] at mem
  obtain ⟨chunk', inside, rfl⟩ := List.mem_map.mp mem
  rw [outputRows_renamed]
  exact room chunk' inside k

end IngestionOrchestrator

end Renamed

namespace Course

open Process IngestionOrchestrator

variable {o : IngestionOrchestrator} {d : Course o} {crc32 : List UInt8 → UInt32} {s : State}
  {count : ℕ} {source : LocatedBlock → String}

/-- The same chain from other sources. -/
def renamed (source : LocatedBlock → String) (d : Course o) : Course o where
  chain := ChainGraph.renamed source d.chain
  denotation := d.denotation
  capacity := d.capacity
  valid := d.valid.renamed source
  recordable := d.recordable
  word := d.word
  room blocks inside := by
    obtain ⟨blocks', within, rfl⟩ := List.infix_map_iff.mp inside
    exact (d.room blocks' within).renamed

theorem Rests.renamed (rests : d.Rests crc32 count s) :
    (d.renamed source).Rests crc32 count s where
  within := rests.within.trans_eq length_renamed.symm
  mirrors := by
    show o.Mirrors ((ChainGraph.renamed source d.chain).take count) s.graph
    rw [take_renamed]
    exact rests.mirrors.renamed (d.valid_take count)
  file := rests.file
  ongoing := rests.ongoing

theorem Rests.of_renamed (rests : (d.renamed source).Rests crc32 count s) :
    d.Rests crc32 count s where
  within := rests.within.trans_eq length_renamed
  mirrors := by
    have mirrors : o.Mirrors ((ChainGraph.renamed source d.chain).take count) s.graph :=
      rests.mirrors
    rw [take_renamed] at mirrors
    exact mirrors.of_renamed (d.valid_take count)
  file := rests.file
  ongoing := rests.ongoing

/-! ## Turns -/

/-- One process: `resume` over block files, or live mode with a node, cut off after a number of
calls. -/
inductive Turn where
  | files (config : Config) (out : Outside) (describe : Halt LoaderError → String)
      (life : Files.Life)
  | node (config : Config) (out : Outside) (iterations cut : ℕ)

/-- What a process leaves to the next. -/
def Turn.leaves (o : IngestionOrchestrator) (crc32 : List UInt8 → UInt32) (capacity : ℕ) :
    Turn → State → State
  | .files config out describe life, s =>
    (Files.live o config crc32 out describe capacity life s).2
  | .node config out iterations cut, s =>
    (Live.runLiveIngestion o config iterations).crash (Process.handle o crc32 out) cut
      (Live.restarted capacity s)

/-- The files hold the first blocks of the chain, or the node has a chain that grows to it. -/
def Serves (d : Course o) : Turn → Prop
  | .files config _ _ life => d.Warmable config ∧ ∃ size, d.Holds life size
  | .node _ out _ _ => ∃ size, (d.renamed fun _ => "rpc").Node out size

/-- One turn. -/
theorem Rests.turn {turn : Turn} (rests : d.Rests crc32 count s) (serves : d.Serves turn) :
    ∃ stored, count ≤ stored ∧ d.Rests crc32 stored (turn.leaves o crc32 d.capacity s) := by
  cases turn with
  | files config out describe life =>
    obtain ⟨warm, size, holds⟩ := serves
    obtain ⟨stored, above, left, -⟩ := rests.live describe out holds warm
    exact ⟨stored, above, left⟩
  | node config out iterations cut =>
    obtain ⟨size, node⟩ := serves
    obtain ⟨stored, above, works⟩ := (steps_runLiveIngestion node rests.renamed.restarted
      iterations).crash (Prog.allAllowed_of_forall (fun _ _ => trivial) _ _ cut)
    exact ⟨stored, above, works.toRests.of_renamed⟩

/-- **Both ways into one database.** Processes take turns, over block files and in live mode, each
cut off somewhere or not. What they leave mirrors the first blocks of the chain, no fewer than
before; and a `resume` after them that is not cut off ends well, with less than a batch left
out. -/
theorem turns_keep (d : Course o) (crc32 : List UInt8 → UInt32) {count : ℕ} {s : State}
    (rests : d.Rests crc32 count s) (turns : List Turn)
    (served : ∀ turn ∈ turns, d.Serves turn) :
    let left := turns.foldl (fun s turn => turn.leaves o crc32 d.capacity s) s
    ∃ stored, count ≤ stored ∧ d.Rests crc32 stored left ∧
      ∀ config out describe life size, d.Warmable config → d.Holds life size → life.cut = none →
        let last := Files.live o config crc32 out describe d.capacity life left
        last.1 = some (.ok ()) ∧ ∃ stored', stored ≤ stored' ∧ d.Rests crc32 stored' last.2 ∧
          (life.maxHeight = stored ∨ Done config.batchSize life.maxHeight size stored') := by
  have each : ∃ stored, count ≤ stored ∧ d.Rests crc32 stored
      (turns.foldl (fun s turn => turn.leaves o crc32 d.capacity s) s) := by
    induction turns generalizing s count with
    | nil => exact ⟨count, Nat.le_refl _, rests⟩
    | cons turn rest ih =>
      obtain ⟨stored, above, rests₁⟩ := rests.turn (served turn List.mem_cons_self)
      obtain ⟨stored', above', rests'⟩ := ih rests₁ fun turn mem =>
        served turn (List.mem_cons_of_mem _ mem)
      exact ⟨stored', above.trans above', rests'⟩
  intro left
  obtain ⟨stored, above, rests'⟩ := each
  refine ⟨stored, above, rests', fun config out describe life size warm holds whole => ?_⟩
  obtain ⟨stored', above', rests'', ended⟩ := rests'.live describe out holds warm
  exact ⟨(ended whole).1, stored', above', rests'', (ended whole).2⟩

theorem node_course : (Sample.course.renamed fun _ => "rpc").Node Sample.node fun _ => 2 where
  grows _ _ _ := Nat.le_refl 2
  within _ := Nat.le_refl 2
  tip := node_sample.tip
  block := node_sample.block
  named b mem := by
    obtain ⟨b', -, rfl⟩ := List.mem_map.mp mem
    rfl
  told := node_sample.told

/-- A process over block files is cut off, then one in live mode; the next one stores both
blocks. -/
theorem turns_keep_sample :
    let files := Course.Turn.files Sample.oneByOne Live.Sample.steady (fun _ => "")
      ⟨.resume, 5, Sample.directory, some 7⟩
    let node := Course.Turn.node (Live.Sample.config "utxo.cache") Sample.node 3 9
    let left := node.leaves (Sample.orchestrator 1000000) Live.Sample.crc32 64
      (files.leaves (Sample.orchestrator 1000000) Live.Sample.crc32 64 Sample.prepared)
    (Sample.orchestrator 1000000).Mirrors [Sample.first, Sample.second]
      (Files.live (Sample.orchestrator 1000000) Sample.oneByOne Live.Sample.crc32
        Live.Sample.steady (fun _ => "") 64 ⟨.resume, 5, Sample.directory, none⟩ left).2.graph := by
  intro files node left
  have cold : Sample.course.Warmable Sample.oneByOne := fun warm => by cases warm
  obtain ⟨stored, -, rests, next⟩ := turns_keep Sample.course Live.Sample.crc32 rests_prepared
    [files, node] fun turn mem => by
      rcases List.mem_pair.mp mem with rfl | rfl
      · exact ⟨cold, 2, holds_directory _⟩
      · exact ⟨_, node_course⟩
  obtain ⟨-, stored', above, rests', done⟩ := next Sample.oneByOne Live.Sample.steady (fun _ => "")
    ⟨.resume, 5, Sample.directory, none⟩ 2 cold (holds_directory none) rfl
  obtain rfl := both_stored rests.within rests'.within done
  exact rests'.mirrors

end Course

end ChainGraph
