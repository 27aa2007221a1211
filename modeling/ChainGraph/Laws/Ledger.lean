import ChainGraph.Foundation.Refine
import ChainGraph.Laws.Mirror

/-!
# The database as a ledger

What the program is for, in two things: a chain of blocks, and the process at work on it, of which
only the capacity of its cache matters. A process starts at the height after the chain; it appends
blocks, one by one or in batches; it cuts the chain at a fork; and it may fail or end at any moment
of its start or inside a batch, with a part of the batch appended.

The program refines this, under one condition: a life of a process waits, where it rolls a chunk
back, until the tasks of the chunk have ended. The program does not see to it: it gives up the other
tasks of a chunk when it hears that one has failed, and what they send after the rollback is
committed on its own. The condition is on the schedule of a life, and is asked in the state the life
begins in. The specification asks for more: a cache that is right, room in it for every chunk of a
batch, a valid chain, and in a life that may fail no chunk that writes outputs beside its
transaction.

Then, whatever the order of the events, however often a process ends, and wherever its calls fail:
the answers are those of the ledger, and the graph is the one its chain leaves when each block is
ingested once, in order, from nothing.
-/

namespace ChainGraph

open Foundation Foundation.Store

/-! ## The ledger -/

/-- A chain, and the capacity of the cache of the process at work on it, if one is. -/
structure Ledger where
  chain : List LocatedBlock
  capacity : Option (Fin numShards → ℕ)

namespace Ledger

open IngestionOrchestrator

/-- What happens to the program. -/
inductive Event where
  /-- A process starts with some cache, and no call fails. -/
  | start (cache : UtxoCache)
  /-- A process starts and is given the batches for the height it starts at. The calls of its start
  meet these fates, and it ends with them; if they are enough, then its main flow and its tasks take
  these turns, in which calls may fail, and it ends with them. -/
  | life (cache : UtxoCache) (batches : ℕ → List (List LocatedBlock)) (fates : List (Fate DbFault))
    (turns : List (Turn neo4j))
  /-- Calls of `ingest_blocks_batch`. -/
  | batches (batches : List (List LocatedBlock))
  /-- Calls of `ingest_block`. -/
  | blocks (blocks : List LocatedBlock)
  | rollback (currentTip forkPoint : ℕ)

inductive Answer where
  | started (resumeHeight : ℕ)
  /-- The start of the process failed, or did not end. -/
  | notStarted
  /-- The height the process started at, and whether its batches succeeded. -/
  | lived (resumeHeight : ℕ) (finished : Bool)
  | ingested
  | rolledBack (count : ℕ)
  | failed (e : WriterError)

variable (o : IngestionOrchestrator) (U : Denotation)

/-- What the program is for. A process may be given a cache that is right, with room for every chunk
of its batches. A rollback is from the tip or from above. -/
def spec : Spec Event Answer Ledger where
  accepts
    | _, .start cache => o.Truthful U cache
    | a, .life cache batches _ _ => o.Truthful U cache ∧
        Valid U (a.chain ++ (batches a.chain.length).flatten) ∧
        (∀ blocks ∈ batches a.chain.length, o.Roomy cache.cap blocks) ∧
        ∀ chunk ∈ o.chunksOf (batches a.chain.length), ¬ o.WritesBeside chunk
    | a, .batches batches => ∃ cap, a.capacity = some cap ∧ Valid U (a.chain ++ batches.flatten) ∧
        ∀ blocks ∈ batches, o.Roomy cap blocks
    | a, .blocks blocks => a.capacity.isSome ∧ Valid U (a.chain ++ blocks)
    | a, .rollback currentTip _ => a.capacity.isSome ∧ tipHeight a.chain ≤ currentTip
  step
    | a, .start cache, answer, a' =>
        answer = .started a.chain.length ∧ a' = ⟨a.chain, some cache.cap⟩
    | a, .life cache batches _ _, answer, a' =>
        (answer = .notStarted ∧ a' = ⟨a.chain, none⟩) ∨
        ∃ stored finished, stored <+: (batches a.chain.length).flatten ∧
          (finished = true → stored = (batches a.chain.length).flatten) ∧
          answer = .lived a.chain.length finished ∧
          a' = ⟨a.chain ++ stored, if finished then some cache.cap else none⟩
    | a, .batches batches, answer, a' =>
        answer = .ingested ∧ a' = { a with chain := a.chain ++ batches.flatten }
    | a, .blocks blocks, answer, a' =>
        answer = .ingested ∧ a' = { a with chain := a.chain ++ blocks }
    | a, .rollback currentTip forkPoint, answer, a' =>
        answer = .rolledBack (currentTip - forkPoint) ∧
          a' = { a with chain := upTo forkPoint a.chain }

/-- The answer of a program. -/
def answered {α : Type} (ok : α → Answer) : Except WriterError α → Answer
  | .ok a => ok a
  | .error e => .failed e

/-- What a program has returned, if it has. -/
def returned {α : Type} : Io α → Option α
  | .ret a => some a
  | _ => none

/-- The main flow has returned. -/
def finished {α : Type} : Flow neo4j UtxoCache WriterError α → Bool
  | .going (.ret _) => true
  | _ => false

/-- What is left of the start of a process when its calls have met these fates, and the store. A
transaction that was open when the process before it ended is gone. -/
def starting (fates : List (Fate DbFault)) (w : World neo4j UtxoCache) : Io ℕ × Store neo4j :=
  let left := o.startUp.after handleFated fates.length ⟨⟨w.store.committed, none⟩, fates⟩
  (left.1, left.2.state)

/-- A process that has started, before its first batch. -/
def begun (cache : UtxoCache) (batches : List (List LocatedBlock)) (s : Store neo4j) :
    Crew neo4j UtxoCache WriterError Unit :=
  .start (o.ingestBatches batches) s.committed cache

/-- What the program does. -/
def serve : Event → World neo4j UtxoCache → Answer × World neo4j UtxoCache
  | .start cache, w =>
    let ran := (io o.startUp).run World.handle ⟨⟨w.store.committed, none⟩, cache⟩
    (answered .started ran.1, ran.2)
  | .life cache batches fates turns, w =>
    let started := starting o fates w
    match returned started.1 with
    | none => (.notStarted, ⟨⟨started.2.committed, none⟩, cache⟩)
    | some resumeHeight =>
      let ended := (begun o cache (batches resumeHeight) started.2).run turns
      (.lived resumeHeight (finished ended.flow), ⟨⟨ended.store.committed, none⟩, ended.memory⟩)
  | .batches batches, w =>
    let ran := (o.ingestBatches batches).run World.handle w
    (answered (fun _ => .ingested) ran.1, ran.2)
  | .blocks blocks, w =>
    let ran := (o.ingestEach blocks).run World.handle w
    (answered (fun _ => .ingested) ran.1, ran.2)
  | .rollback currentTip forkPoint, w =>
    let ran := (io (o.rollbackToHeight currentTip forkPoint)).run World.handle w
    (answered .rolledBack ran.1, ran.2)

/-- In a life no chunk is rolled back while one of its tasks is at work. -/
def Waits : Event → World neo4j UtxoCache → Prop
  | .life cache batches fates turns, w => ∀ resumeHeight ∈ returned (starting o fates w).1,
      (begun o cache (batches resumeHeight) (starting o fates w).2).CarefulRun turns
  | _, _ => True

instance (e : Event) (w : World neo4j UtxoCache) : Decidable (Waits o e w) :=
  match e with
  | .life .. => inferInstanceAs (Decidable (∀ resumeHeight ∈ returned _, _))
  | .start _ => isTrue trivial
  | .batches _ => isTrue trivial
  | .blocks _ => isTrue trivial
  | .rollback _ _ => isTrue trivial

/-- The state of the program is that of the ledger. -/
structure Kept (a : Ledger) (w : World neo4j UtxoCache) : Prop where
  valid : Valid U a.chain
  mirrors : o.Mirrors a.chain w.store.committed
  work : ∀ cap, a.capacity = some cap → o.AtWork U cap w

variable {o U}

theorem returned_eq_some {α : Type} {p : Io α} {a : α} : returned p = some a ↔ p = .ret a := by
  cases p <;> simp [returned]

theorem finished_eq_true {flow : Flow neo4j UtxoCache WriterError Unit} :
    finished flow = true ↔ flow = .going (.ret ()) := by
  constructor
  · intro back
    unfold finished at back
    split at back
    · rfl
    · cases back
  · rintro rfl
    rfl

variable {a : Ledger} {w : World neo4j UtxoCache}

theorem Kept.start (kept : Kept o U a w) {cache : UtxoCache}
    (accepted : (spec o U).accepts a (.start cache)) :
    ∃ a', (spec o U).step a (.start cache) (serve o (.start cache) w).1 a' ∧
      Kept o U a' (serve o (.start cache) w).2 := by
  obtain ⟨g, started, mirrors⟩ := kept.mirrors.startUp kept.valid
  dsimp only [serve]
  rw [run_io_eq started]
  refine ⟨_, ⟨rfl, rfl⟩, kept.valid, mirrors, fun cap same => ?_⟩
  exact ⟨rfl, accepted, Option.some.inj same⟩

theorem Kept.life (kept : Kept o U a w) {cache : UtxoCache}
    {batches : ℕ → List (List LocatedBlock)} {fates : List (Fate DbFault)}
    {turns : List (Turn neo4j)}
    (accepted : (spec o U).accepts a (.life cache batches fates turns))
    (waits : Waits o (.life cache batches fates turns) w) :
    ∃ a', (spec o U).step a (.life cache batches fates turns)
        (serve o (.life cache batches fates turns) w).1 a' ∧
      Kept o U a' (serve o (.life cache batches fates turns) w).2 := by
  obtain ⟨truthful, valid, room, inside⟩ := accepted
  obtain ⟨mirrors, next⟩ : o.Mirrors a.chain (starting o fates w).2.committed ∧
      ∀ height, (starting o fates w).1 = .ret height → height = a.chain.length :=
    kept.mirrors.startUp_after kept.valid fates
  dsimp only [serve]
  cases started : returned (starting o fates w).1 with
  | none => exact ⟨_, Or.inl ⟨rfl, rfl⟩, kept.valid, mirrors, fun cap none => by cases none⟩
  | some resumeHeight =>
    obtain rfl : resumeHeight = a.chain.length :=
      next resumeHeight (returned_eq_some.mp started)
    obtain ⟨stored, ⟨later, whole⟩, mirrors', back⟩ :=
      mirrors.attempt truthful rfl valid room inside (waits _ started)
    unfold begun
    dsimp only at mirrors' back ⊢
    generalize (Crew.start (o.ingestBatches (batches a.chain.length))
      (starting o fates w).2.committed cache).run turns = ended at mirrors' back ⊢
    refine ⟨_, Or.inr ⟨stored, finished ended.flow, ⟨later, whole⟩, fun done => ?_, rfl, rfl⟩, ?_,
      mirrors', fun cap same => ?_⟩
    · exact (back (finished_eq_true.mp done)).1
    · rw [← whole, ← List.append_assoc] at valid
      exact valid.left
    · cases done : finished ended.flow with
      | false =>
        simp [done] at same
      | true =>
        obtain ⟨-, free, truthful, capacity⟩ := back (finished_eq_true.mp done)
        simp only [done, if_true, Option.some.injEq] at same
        exact ⟨rfl, truthful, capacity.trans same⟩

theorem Kept.batches (kept : Kept o U a w) {batches : List (List LocatedBlock)}
    (accepted : (spec o U).accepts a (.batches batches)) :
    ∃ a', (spec o U).step a (.batches batches) (serve o (.batches batches) w).1 a' ∧
      Kept o U a' (serve o (.batches batches) w).2 := by
  obtain ⟨cap, working, valid, room⟩ := accepted
  have work := kept.work cap working
  have fits := kept.mirrors.fits work valid
  rw [← List.append_nil batches.flatten] at fits
  obtain ⟨w', ran, fits', advanced⟩ := fits.ingestBatches (work.cap ▸ room)
  dsimp only [serve]
  rw [ran]
  refine ⟨_, ⟨rfl, rfl⟩, valid, ?_, fun cap' same => ⟨fits'.ready.free, fits'.truthful, ?_⟩⟩
  · exact kept.mirrors.advance valid advanced.grown fits'.ready.sound advanced.checkpoint
  · exact advanced.cap.trans (kept.work cap' same).cap

theorem Kept.blocks (kept : Kept o U a w) {blocks : List LocatedBlock}
    (accepted : (spec o U).accepts a (.blocks blocks)) :
    ∃ a', (spec o U).step a (.blocks blocks) (serve o (.blocks blocks) w).1 a' ∧
      Kept o U a' (serve o (.blocks blocks) w).2 := by
  obtain ⟨working, valid⟩ := accepted
  obtain ⟨cap, working⟩ := Option.isSome_iff_exists.mp working
  have fits := kept.mirrors.fits (kept.work cap working) valid
  rw [← List.append_nil blocks] at fits
  obtain ⟨w', ran, fits', advanced⟩ := fits.ingestEach
  dsimp only [serve]
  rw [ran]
  refine ⟨_, ⟨rfl, rfl⟩, valid, ?_, fun cap' same => ⟨fits'.ready.free, fits'.truthful, ?_⟩⟩
  · exact kept.mirrors.advance valid advanced.grown fits'.ready.sound advanced.checkpoint
  · exact advanced.cap.trans (kept.work cap' same).cap

theorem Kept.rollback (kept : Kept o U a w) {currentTip forkPoint : ℕ}
    (accepted : (spec o U).accepts a (.rollback currentTip forkPoint)) :
    ∃ a', (spec o U).step a (.rollback currentTip forkPoint)
        (serve o (.rollback currentTip forkPoint) w).1 a' ∧
      Kept o U a' (serve o (.rollback currentTip forkPoint) w).2 := by
  obtain ⟨working, tip⟩ := accepted
  obtain ⟨cap, working⟩ := Option.isSome_iff_exists.mp working
  obtain ⟨free, truthful, -⟩ := kept.work cap working
  obtain ⟨⟨g, active⟩, c⟩ := w
  obtain rfl : active = none := free
  dsimp only [serve]
  rw [run_io_eq (run_rollbackToHeight ..)]
  refine ⟨_, ⟨rfl, rfl⟩, valid_upTo kept.valid forkPoint, ?_, fun cap' same => ?_⟩
  · exact kept.mirrors.rollback kept.valid forkPoint tip
  · exact ⟨rfl, truthful, (kept.work cap' same).cap⟩

/-- **The program refines the ledger**, where its lives wait. -/
theorem refines (o : IngestionOrchestrator) (U : Denotation) :
    Refines (spec o U) (serve o) (Waits o) (Kept o U) where
  serves a w e kept accepted waits := by
    cases e with
    | start cache => exact kept.start accepted
    | life cache batches fates turns => exact kept.life accepted waits
    | batches batches => exact kept.batches accepted
    | blocks blocks => exact kept.blocks accepted
    | rollback currentTip forkPoint => exact kept.rollback accepted

/-! ## Histories -/

/-- Nothing is stored and no process is at work. -/
def nothing : Ledger := ⟨[], none⟩

theorem valid_nil : Valid U [] where
  genesis b head := by cases head
  adjacent := List.isChain_nil
  linked := List.isChain_nil
  txids := List.nodup_nil
  spends before tx after split := by cases before <;> cases split
  hashes := List.nodup_nil
  denoted tx mem := by cases mem
  filled b mem := by cases mem
  word := by decide

theorem kept_nothing (c : UtxoCache) : Kept o U nothing ⟨⟨.empty, none⟩, c⟩ :=
  ⟨valid_nil, mirrors_empty, fun cap working => by cases working⟩

/-- The graph is that of a chain, its checkpoint is at the last block, and if the amounts are small,
then the graph of the chain is the one it defines, and both layers agree. -/
structure Stores (o : IngestionOrchestrator) (chain : List LocatedBlock) (g : Graph) : Prop where
  bare : g.bare = (o.graphOf chain).bare
  addresses : g.relatedAddresses = (o.graphOf chain).relatedAddresses
  height : ∀ tip, chain.length = tip + 1 → g.storedHeight = tip
  image : SmallAmounts chain → o.Image chain (o.graphOf chain) ∧ g.LayersAgree

theorem Kept.stores (kept : Kept o U a w) : Stores o a.chain w.store.committed := by
  have own : Valid (outputsUnder a.chain) (a.chain ++ []) := by
    rw [List.append_nil]
    exact { kept.valid with denoted := denotes_outputsUnder kept.valid.txids }
  obtain ⟨w₀, -, same, fits, advanced⟩ := graphOf_fits (o := o) own
  refine ⟨kept.mirrors.bare, ?_, kept.mirrors.height, fun amounts => ?_⟩
  · rw [kept.mirrors.sound.relatedAddresses, ← same, fits.ready.sound.relatedAddresses, same,
      kept.mirrors.bare]
  · have image := image_of_grown kept.valid.toFromGenesis amounts advanced.new advanced.grown
    rw [same] at image
    have layers : (o.graphOf a.chain).bare.LayersAgree := { image.layers with }
    rw [← kept.mirrors.bare] at layers
    exact ⟨image, { layers with }⟩

/-- **Histories.** From an empty database, whatever happens to the program, if its lives wait: its
answers are those of the ledger, and the database holds the ledger's chain. -/
theorem history (o : IngestionOrchestrator) (U : Denotation) {events : List Event}
    (accepted : (spec o U).AcceptsAll events nothing) {c : UtxoCache}
    (waits : Spec.MeetAll (serve o) (Waits o) events ⟨⟨.empty, none⟩, c⟩) :
    ∃ a, (spec o U).Steps nothing (Spec.serveAll (serve o) events ⟨⟨.empty, none⟩, c⟩).1 a ∧
      Stores o a.chain (Spec.serveAll (serve o) events ⟨⟨.empty, none⟩, c⟩).2.store.committed := by
  obtain ⟨a, steps, kept⟩ := (refines o U).serveAll (kept_nothing c) accepted waits
  exact ⟨a, steps, kept.stores⟩

/-- A process: its cache, the blocks it is given from each height, and what becomes of its calls. -/
structure Life where
  cache : UtxoCache
  batches : ℕ → List (List LocatedBlock)
  fates : List (Fate DbFault)
  turns : List (Turn neo4j)

def Life.event (life : Life) : Event := .life life.cache life.batches life.fates life.turns

section Lives

variable {chain : List LocatedBlock} {life : Life} {lives : List Life}

/-- What a life of a process does to a part of a chain, when it is given the rest. -/
theorem step_life (whole : ∀ n, (life.batches n).flatten = chain.drop n) {a a' : Ledger}
    {answer : Answer} (step : (spec o U).step a life.event answer a') (part : a.chain <+: chain) :
    a'.chain <+: chain ∧ a.chain <+: a'.chain ∧ (answer = .notStarted ∨ ∃ finished,
      answer = .lived a.chain.length finished ∧ (finished = true → a'.chain = chain)) := by
  rcases step with ⟨rfl, rfl⟩ | ⟨stored, finished, upTo, all, rfl, rfl⟩
  · exact ⟨part, List.prefix_rfl, Or.inl rfl⟩
  · rw [whole] at upTo all
    have split : a.chain ++ chain.drop a.chain.length = chain := List.prefix_iff_eq_append.mp part
    refine ⟨?_, List.prefix_append .., Or.inr ⟨finished, rfl, fun back => ?_⟩⟩
    · conv_rhs => rw [← split]
      exact (List.prefix_append_right_inj _).mpr upTo
    · rw [all back, split]

/-- What a process has to be given: a cache that is right, and the rest of the chain in batches that
leave room in the cache. -/
structure Life.Supplied (o : IngestionOrchestrator) (U : Denotation) (chain : List LocatedBlock)
    (life : Life) : Prop where
  truthful : o.Truthful U life.cache
  whole : ∀ n, (life.batches n).flatten = chain.drop n
  room : ∀ n, ∀ blocks ∈ life.batches n, o.Roomy life.cache.cap blocks
  inside : ∀ n, ∀ chunk ∈ o.chunksOf (life.batches n), ¬ o.WritesBeside chunk

theorem Life.Supplied.accepted (supplied : life.Supplied o U chain) (valid : Valid U chain)
    {a : Ledger} (part : a.chain <+: chain) : (spec o U).accepts a life.event := by
  refine ⟨supplied.truthful, ?_, supplied.room _, supplied.inside _⟩
  rw [supplied.whole, List.prefix_iff_eq_append.mp part]
  exact valid

/-- **Lives.** Processes that fail or end anywhere, but wait, each given the rest of a chain from
the height it starts at: what is stored is a part of the chain; each process that starts does so at
the height after what was stored then, which is never more than what is stored in the end; and once
one has succeeded, all of the chain is stored. -/
theorem lives_complete (o : IngestionOrchestrator) (U : Denotation) (valid : Valid U chain)
    (supplied : ∀ life ∈ lives, life.Supplied o U chain) {c : UtxoCache}
    (waits : Spec.MeetAll (serve o) (Waits o) (lives.map Life.event) ⟨⟨.empty, none⟩, c⟩) :
    let served := Spec.serveAll (serve o) (lives.map Life.event) ⟨⟨.empty, none⟩, c⟩
    ∃ stored, stored <+: chain ∧ Stores o stored served.2.store.committed ∧
      ∀ x ∈ served.1, x.2 = .notStarted ∨ ∃ height finished, x.2 = .lived height finished ∧
        height ≤ stored.length ∧ (finished = true → stored = chain) := by
  intro served
  have accepts : ∀ (lives' : List Life) (a : Ledger), (∀ life ∈ lives', life ∈ lives) →
      a.chain <+: chain → (spec o U).AcceptsAll (lives'.map Life.event) a := by
    intro lives'
    induction lives' with
    | nil => exact fun _ _ _ => trivial
    | cons life rest ih =>
      intro a among part
      have here := supplied life (among life List.mem_cons_self)
      refine ⟨here.accepted valid part, fun answer a' step => ?_⟩
      exact ih a' (fun life mem => among life (List.mem_cons_of_mem _ mem))
        (step_life here.whole step part).1
  obtain ⟨a, steps, kept⟩ := (refines o U).serveAll (kept_nothing c)
    (accepts lives nothing (fun _ mem => mem) (List.nil_prefix)) waits
  have events : ∀ x ∈ served.1, ∃ life ∈ lives, life.event = x.1 := fun x mem => by
    refine List.mem_map.mp ?_
    rw [← Spec.map_fst_serveAll (serve o) (lives.map Life.event) ⟨⟨.empty, none⟩, c⟩]
    exact List.mem_map_of_mem mem
  have each : ∀ a e answer a', (e, answer) ∈ served.1 → (spec o U).step a e answer a' →
      a.chain <+: chain → a'.chain <+: chain ∧ a.chain <+: a'.chain ∧
        (answer = .notStarted ∨ ∃ finished, answer = .lived a.chain.length finished ∧
          (finished = true → a'.chain = chain)) := by
    intro a e answer a' mem step part
    obtain ⟨life, inLives, rfl⟩ := events _ mem
    exact step_life (supplied life inLives).whole step part
  have part : a.chain <+: chain := steps.keeps (P := fun a => a.chain <+: chain)
    (fun _ _ _ _ mem step part => (each _ _ _ _ mem step part).1) List.nil_prefix
  refine ⟨a.chain, part, kept.stores, ?_⟩
  rintro ⟨e, answer⟩ mem
  refine steps.reaches (P := fun a => a.chain <+: chain)
    (Q := fun a => answer = .notStarted ∨ ∃ height finished, answer = .lived height finished ∧
      height ≤ a.chain.length ∧ (finished = true → a.chain = chain)) ?_ mem ?_ List.nil_prefix
  · intro a e o a' mem step part
    obtain ⟨part', longer, -⟩ := each _ _ _ _ mem step part
    refine ⟨part', fun reached => reached.imp_right ?_⟩
    rintro ⟨height, finished, same, low, back⟩
    refine ⟨height, finished, same, low.trans longer.length_le, fun done => ?_⟩
    rw [back done] at longer
    exact part'.eq_of_length_le longer.length_le
  · intro a a' step part
    obtain ⟨-, longer, reached⟩ := each _ _ _ _ mem step part
    refine reached.imp_right ?_
    rintro ⟨finished, same, back⟩
    exact ⟨a.chain.length, finished, same, longer.length_le, back⟩

end Lives

end Ledger

/-! ## A fork, and processes that die -/

namespace Sample

/-- The outputs of all transactions of the small chains. -/
def outputs : Denotation := outputsUnder [first, second, other]

/-- What is left of the small chain from a height, one block a batch. -/
def rest (height : ℕ) : List (List LocatedBlock) := ([first, second].drop height).map ([·])

/-- Turns of eight tasks. -/
def shifts (n : ℕ) : List (Turn neo4j) :=
  (List.replicate n ((List.range 8).map (.task · none))).flatten

/-- Turns of the main flow and of eight tasks. -/
def rounds (n : ℕ) : List (Turn neo4j) := (List.replicate n (.main none :: shifts 1)).flatten

/-- The write of a bucket fails. The other tasks end before the main flow goes on. -/
def failingWrite : List (Turn neo4j) :=
  List.replicate 25 (.main none) ++ [.task 2 none, .task 2 (some .elapsed)] ++ shifts 4 ++
    List.replicate 12 (.main none)

/-- A process that is given what is left of the small chain. -/
def life (fates : List (Fate DbFault)) (turns : List (Turn neo4j)) : Ledger.Life :=
  ⟨.new 64, rest, fates, turns⟩

/-- A process that starts. -/
def well : List (Fate DbFault) := List.replicate 6 .served

/-- A process ingests the first block. Another fails at the second one. A third goes back to the
first block and takes the other way. -/
def forking : List Ledger.Event :=
  [.start (.new 64), .blocks [first], (life well failingWrite).event, .start (.new 64),
    .rollback 1 0]

def forked : List Ledger.Event := forking ++ [.batches [[other]]]

/-- A process that dies after the first block, one whose start fails, one that fails at the second
block, and one that is left alone. -/
def fourLives : List Ledger.Life :=
  [life well (rounds 30), life [.served, .unanswered .elapsed] [], life well failingWrite,
    life well (rounds 40)]

end Sample

theorem valid_first : Valid Sample.outputs [Sample.first, Sample.second] where
  toFromGenesis := fromGenesis_sample
  hashes := by decide
  denoted := by
    unfold Denotes
    decide
  filled := by
    unfold IngestionOrchestrator.Filled
    decide
  word := by decide

theorem valid_forked : Valid Sample.outputs [Sample.first, Sample.other] where
  toFromGenesis := fromGenesis_other
  hashes := by decide
  denoted := by
    unfold Denotes
    decide
  filled := by
    unfold IngestionOrchestrator.Filled
    decide
  word := by decide

theorem roomy_of_few {blocks : List LocatedBlock}
    (few : ∀ chunk ∈ (Sample.orchestrator 1000000).adaptiveChunks blocks,
      ((Sample.orchestrator 1000000).outputRows chunk).length ≤ 4) :
    (Sample.orchestrator 1000000).Roomy (UtxoCache.new 64).cap blocks :=
  fun chunk mem _ => (List.length_filter_le ..).trans (few chunk mem)

theorem supplied_life (fates : List (Fate DbFault)) (turns : List (Turn neo4j)) :
    (Sample.life fates turns).Supplied (Sample.orchestrator 1000000) Sample.outputs
      [Sample.first, Sample.second] where
  truthful := IngestionOrchestrator.truthful_of_empty (UtxoCache.peek_new 64)
  whole n := by
    show (Sample.rest n).flatten = _
    rw [Sample.rest, ← List.flatMap_def, List.flatMap_singleton']
  room n blocks mem := by
    obtain ⟨b, here, rfl⟩ := List.mem_map.mp mem
    refine roomy_of_few ?_
    have few : ∀ b ∈ [Sample.first, Sample.second],
        ∀ chunk ∈ (Sample.orchestrator 1000000).adaptiveChunks [b],
          ((Sample.orchestrator 1000000).outputRows chunk).length ≤ 4 := by
      decide +kernel
    exact few b (List.mem_of_mem_drop here)
  inside n chunk mem beside := by
    obtain ⟨⟨b, inChunk, special⟩, -⟩ := beside
    obtain ⟨blocks, one, among⟩ := List.mem_flatMap.mp mem
    obtain ⟨b', here, rfl⟩ := List.mem_map.mp one
    have same := (Sample.orchestrator 1000000).mem_of_mem_adaptiveChunks among inChunk
    cases List.mem_singleton.mp same
    have usual : ∀ b ∈ [Sample.first, Sample.second], b.height ∉ bip30DuplicateHeights := by decide
    exact usual b (List.mem_of_mem_drop here) special

/-- What the process that fails at the second block may leave. -/
theorem chain_failed {fates : List (Fate DbFault)} {turns : List (Turn neo4j)}
    {a : Ledger} {answer : Ledger.Answer} {cap : Option (Fin numShards → ℕ)}
    (step : (Ledger.spec (Sample.orchestrator 1000000) Sample.outputs).step ⟨[Sample.first], cap⟩
      (Sample.life fates turns).event answer a) :
    a.chain = [Sample.first] ∨ a.chain = [Sample.first, Sample.second] := by
  obtain ⟨⟨later, whole⟩, ⟨more, grown⟩, -⟩ := Ledger.step_life
    (supplied_life fates turns).whole step (List.prefix_append [Sample.first] [Sample.second])
  rw [← grown, List.singleton_append, List.cons_append] at whole
  have rest := (List.cons.inj whole).2
  rcases List.prefix_cons_iff.mp ⟨later, rest⟩ with rfl | ⟨more, rfl, none⟩
  · exact Or.inl grown.symm
  · rw [List.prefix_nil.mp none] at grown
    exact Or.inr grown.symm

theorem accepted_forked : (Ledger.spec (Sample.orchestrator 1000000) Sample.outputs).AcceptsAll
    Sample.forked Ledger.nothing := by
  have truthful : (Sample.orchestrator 1000000).Truthful Sample.outputs (.new 64) :=
    IngestionOrchestrator.truthful_of_empty (UtxoCache.peek_new 64)
  refine ⟨truthful, ?_⟩
  rintro _ _ ⟨rfl, rfl⟩
  have both : Valid Sample.outputs ([Sample.first] ++ [Sample.second]) := valid_first
  refine ⟨⟨rfl, both.left⟩, ?_⟩
  rintro _ _ ⟨rfl, rfl⟩
  refine ⟨(supplied_life _ _).accepted valid_first (List.prefix_append _ [Sample.second]), ?_⟩
  rintro _ ⟨chain, _⟩ step
  have left : chain = [Sample.first] ∨ chain = [Sample.first, Sample.second] := chain_failed step
  refine ⟨truthful, ?_⟩
  rintro _ _ ⟨rfl, rfl⟩
  have tip : IngestionOrchestrator.tipHeight chain ≤ 1 := by
    rcases left with rfl | rfl <;> decide
  have back : IngestionOrchestrator.upTo 0 chain = [Sample.first] := by
    rcases left with rfl | rfl <;> rfl
  refine ⟨⟨rfl, tip⟩, ?_⟩
  rintro _ _ ⟨rfl, rfl⟩
  refine ⟨⟨_, rfl, ?_, fun blocks mem => ?_⟩, fun _ _ _ => trivial⟩
  · show Valid Sample.outputs (IngestionOrchestrator.upTo 0 chain ++ _)
    rw [back]
    exact valid_forked
  · cases List.mem_singleton.mp mem
    exact roomy_of_few (by decide +kernel)

theorem waits_forked : Spec.MeetAll (Ledger.serve (Sample.orchestrator 1000000))
    (Ledger.Waits (Sample.orchestrator 1000000)) Sample.forked ⟨⟨.empty, none⟩, .new 1⟩ := by
  decide +kernel

namespace Ledger

theorem history_sample :
    ∃ a, (spec (Sample.orchestrator 1000000) Sample.outputs).Steps nothing
        (Spec.serveAll (serve (Sample.orchestrator 1000000)) Sample.forked
          ⟨⟨.empty, none⟩, .new 1⟩).1 a ∧
      Stores (Sample.orchestrator 1000000) a.chain
        (Spec.serveAll (serve (Sample.orchestrator 1000000)) Sample.forked
          ⟨⟨.empty, none⟩, .new 1⟩).2.store.committed :=
  history _ _ accepted_forked waits_forked

theorem lives_complete_sample :
    let served := Spec.serveAll (serve (Sample.orchestrator 1000000))
      (Sample.fourLives.map Life.event) ⟨⟨.empty, none⟩, .new 1⟩
    ∃ stored, stored <+: [Sample.first, Sample.second] ∧
      Stores (Sample.orchestrator 1000000) stored served.2.store.committed ∧
      ∀ x ∈ served.1, x.2 = .notStarted ∨ ∃ height finished, x.2 = .lived height finished ∧
        height ≤ stored.length ∧ (finished = true → stored = [Sample.first, Sample.second]) := by
  refine lives_complete _ Sample.outputs valid_first (fun life mem => ?_) (by decide +kernel)
  have made : ∃ fates turns, life = Sample.life fates turns := by
    simp only [Sample.fourLives, List.mem_cons, List.not_mem_nil, or_false] at mem
    rcases mem with rfl | rfl | rfl | rfl <;> exact ⟨_, _, rfl⟩
  obtain ⟨fates, turns, rfl⟩ := made
  exact supplied_life fates turns

end Ledger

end ChainGraph
