import ChainGraph.Foundation.Alike
import ChainGraph.Laws.Live
import ChainGraph.Laws.Loader
import ChainGraph.Main.Files

/-!
# Processes that load their blocks from files

A process keeps a loader, and what the loader answers could depend on all that the process has asked
before, pre-warming included. Over an index with at most one record at a height it does not: every
process ends, and is cut off, like one that looks its blocks up in a table made of the directory.
So what is known of processes for arbitrary answers holds of processes with block files.
-/

namespace ChainGraph

open Foundation

namespace Files

open Process Live SingleBlockLoader BlockIndex

variable {o : IngestionOrchestrator} {config : Config} {crc32 : List UInt8 → UInt32}
  {out : Outside} {describe : Halt LoaderError → String} {l : SingleBlockLoader}

/-! ## A loader that could be a table -/

/-- The surroundings in which every height is answered by its one record. -/
def reading (o : IngestionOrchestrator) (config : Config) (describe : Halt LoaderError → String)
    (l : SingleBlockLoader) (out : Outside) : Outside :=
  { out with
    load := fun height =>
      ((l.answer height).mapError describe).map (Option.map fun b => (b.block, b.fileName))
    preload := .ok ()
    prewarm := fun startHeight cache =>
      (warmed (l.prewarmCache o.crate o.network cache startHeight
        config.utxoPrewarmDepth)).mapError describe }

/-- The same run; and the loader stems from the one the process made. -/
structure Reads (l : SingleBlockLoader) (s : State) (t : Process.State) : Prop where
  run : s.run = t
  knows : Knows l s.loader

theorem height_answer {height : ℕ} {b : LocatedBlock} (found : l.answer height = .ok (some b)) :
    b.height = height := by
  unfold answer at found
  cases known : (entryFor l.reader height).map BlockLocation.ofEntry with
  | none =>
    rw [known] at found
    cases found
  | some location =>
    rw [known] at found
    obtain ⟨data, read, same⟩ := Checked.bind_eq_ok.mp found
    cases same
    unfold readLocated at read
    dsimp only at read
    split at read
    · cases read
    · obtain ⟨block, -, same⟩ := Checked.bind_eq_ok.mp read
      cases same
      rfl

theorem alike_loadBlock (opened : Open l.reader) (sole : Sole l.reader) {s : State}
    {t : Process.State} (reads : Reads l s t) (height : ℕ) :
    (act o config crc32 out describe (.loadBlock height) s).1 =
        (Process.act o crc32 (reading o config describe l out) (.loadBlock height) t).1 ∧
      Reads l (act o config crc32 out describe (.loadBlock height) s).2
        (Process.act o crc32 (reading o config describe l out) (.loadBlock height) t).2 := by
  obtain ⟨l', knows', loaded⟩ := loadBlock_eq reads.knows opened sole height
  unfold act Process.act reading
  dsimp only
  rw [loaded]
  cases found : l.answer height with
  | error halt => exact ⟨rfl, reads⟩
  | ok data =>
    refine ⟨?_, reads.run, knows'⟩
    cases data with
    | none => rfl
    | some b =>
      have here := height_answer found
      subst here
      rfl

theorem alike_prewarmCache (opened : Open l.reader) (sole : Sole l.reader)
    (fresh : l.blockIndex = ∅) {s : State} {t : Process.State} (reads : Reads l s t)
    (startHeight : ℕ) :
    (act o config crc32 out describe (.prewarmCache startHeight) s).1 =
        (Process.act o crc32 (reading o config describe l out) (.prewarmCache startHeight) t).1 ∧
      Reads l (act o config crc32 out describe (.prewarmCache startHeight) s).2
        (Process.act o crc32 (reading o config describe l out)
          (.prewarmCache startHeight) t).2 := by
  obtain ⟨rfl, knows⟩ := reads
  have walk : SameWalk l
      (s.loader.prewarmCache o.crate o.network s.run.world.memory startHeight
        config.utxoPrewarmDepth)
      (l.prewarmCache o.crate o.network s.run.world.memory startHeight
        config.utxoPrewarmDepth) :=
    sameWalk_prewarmCache opened sole knows (Knows.fresh fresh)
  unfold act Process.act reading
  dsimp only
  rw [← walk.warmed]
  cases done : s.loader.prewarmCache o.crate o.network s.run.world.memory startHeight
      config.utxoPrewarmDepth with
  | error halt => exact ⟨rfl, rfl, knows⟩
  | ok after =>
    obtain ⟨n, loader, cache⟩ := after
    exact ⟨rfl, rfl, walk.knows n loader cache done⟩

theorem alike_preloadFullRange (opened : Open l.reader) {s : State} {t : Process.State}
    (reads : Reads l s t) (startHeight maxHeight : ℕ) :
    (act o config crc32 out describe (.preloadFullRange startHeight maxHeight) s).1 =
        (Process.act o crc32 (reading o config describe l out)
          (.preloadFullRange startHeight maxHeight) t).1 ∧
      Reads l (act o config crc32 out describe (.preloadFullRange startHeight maxHeight) s).2
        (Process.act o crc32 (reading o config describe l out)
          (.preloadFullRange startHeight maxHeight) t).2 := by
  obtain ⟨batch, _, load, scanned⟩ :=
    reads.knows.preloadRange opened.opens startHeight maxHeight
  unfold act Process.act reading preloadFullRange
  dsimp only
  rw [load]
  exact ⟨rfl, reads.run, reads.knows.withBatch scanned⟩

/-- **A process with a loader** acts like one whose blocks come from a table. -/
theorem alike_handle (opened : Open l.reader) (sole : Sole l.reader) (fresh : l.blockIndex = ∅) :
    Prog.Alike (handle o config crc32 out describe)
      (Process.handle o crc32 (reading o config describe l out)) (Reads l) := by
  intro c s t reads
  have acts : (act o config crc32 out describe c s).1 =
        (Process.act o crc32 (reading o config describe l out) c t).1 ∧
      Reads l (act o config crc32 out describe c s).2
        (Process.act o crc32 (reading o config describe l out) c t).2 := by
    cases c with
    | loadBlock height => exact alike_loadBlock opened sole reads height
    | prewarmCache startHeight => exact alike_prewarmCache opened sole fresh reads startHeight
    | preloadFullRange startHeight maxHeight =>
      exact alike_preloadFullRange opened reads startHeight maxHeight
    | _ =>
      obtain ⟨rfl, knows⟩ := reads
      exact ⟨rfl, rfl, knows⟩
  obtain ⟨answer, run, knows⟩ := acts
  refine ⟨answer, ?_, knows⟩
  unfold handle Process.handle
  dsimp only
  rw [run, reads.run]

/-! ## Lives -/

/-- The life of a process that looks its blocks up in a table. -/
def liveReading (o : IngestionOrchestrator) (config : Config) (crc32 : List UInt8 → UInt32)
    (out : Outside) (describe : Halt LoaderError → String) (capacity : ℕ) (life : Life)
    (s : Process.State) : Option (Except String Unit) × Process.State :=
  let config := { config with maxHeight := life.maxHeight }
  let h := Process.handle o crc32 (reading o config describe life.loader out)
  match life.cut with
  | some n => (none, (life.command.run o config).crash h n (restarted capacity s))
  | none =>
    let ran := (life.command.run o config).run h (restarted capacity s)
    (some ran.1, ran.2)

/-- The loader is new, and no two records of its index share a height. -/
structure Life.Plain (life : Life) : Prop where
  opened : Open life.loader.reader
  sole : Sole life.loader.reader
  fresh : life.loader.blockIndex = ∅

theorem live_eq_liveReading {life : Life} (plain : life.Plain) (capacity : ℕ)
    (s : Process.State) :
    live o config crc32 out describe capacity life s =
      liveReading o config crc32 out describe capacity life s := by
  have start : Reads life.loader ⟨restarted capacity s, life.loader⟩ (restarted capacity s) :=
    ⟨rfl, Knows.fresh plain.fresh⟩
  have alike : Prog.Alike
      (handle o { config with maxHeight := life.maxHeight } crc32 out describe)
      (Process.handle o crc32
        (reading o { config with maxHeight := life.maxHeight } describe life.loader out))
      (Reads life.loader) :=
    alike_handle plain.opened plain.sole plain.fresh
  unfold live liveReading
  cases life.cut with
  | some n => exact congrArg (none, ·) (alike.crash _ start n).run
  | none =>
    obtain ⟨ended, left⟩ := alike.run (life.command.run o _) start
    exact congrArg₂ (fun ended left => (some ended, left)) ended left.run

/-- **Processes with block files**, one after the other, each with the directory it finds: they end,
and leave the database and the cache file, as if their blocks came from tables. -/
theorem lives_eq_reading (o : IngestionOrchestrator) (config : Config)
    (crc32 : List UInt8 → UInt32) (out : Outside) (describe : Halt LoaderError → String)
    (capacity : ℕ) (lives : List Life) (plain : ∀ life ∈ lives, life.Plain) (s : Process.State) :
    inTurn (live o config crc32 out describe capacity) lives s =
      inTurn (liveReading o config crc32 out describe capacity) lives s := by
  induction lives generalizing s with
  | nil => rfl
  | cons life rest ih =>
    unfold inTurn
    rw [live_eq_liveReading (plain life (by simp))]
    simp only [ih fun other later => plain other (by simp [later])]

/-- Two processes over a directory of two blocks: the first is cut off after one block, the second
stores the other. -/
theorem lives_eq_reading_sample :
    let o := ChainGraph.Sample.orchestrator 1000000
    let config := { Live.Sample.config "utxo.cache" with batchSize := 1 }
    let lives : List Life :=
      [⟨.ingest, 5, ChainGraph.Sample.directory, some 9⟩,
        ⟨.resume, 5, ChainGraph.Sample.directory, none⟩]
    let ran := inTurn (live o config Live.Sample.crc32 Live.Sample.steady (fun _ => "") 64) lives
      Live.Sample.empty
    ran = inTurn (liveReading o config Live.Sample.crc32 Live.Sample.steady (fun _ => "") 64) lives
        Live.Sample.empty ∧
      ran.1 = [none, some (.ok ())] ∧ ran.2.graph.blocks.rows.card = 2 := by
  intro o config lives ran
  have read : ran = inTurn (liveReading o config Live.Sample.crc32 Live.Sample.steady
      (fun _ => "") 64) lives Live.Sample.empty := by
    refine lives_eq_reading _ _ _ _ _ _ _ (fun life mem => ?_) _
    have plain : life.loader = ChainGraph.Sample.directory := by
      simp only [lives, List.mem_cons, List.not_mem_nil, or_false] at mem
      rcases mem with rfl | rfl <;> rfl
    exact ⟨plain ▸ open_directory, plain ▸ sole_directory, plain ▸ rfl⟩
  refine ⟨read, ?_, ?_⟩
  · rw [read]
    decide +kernel
  · rw [read]
    decide +kernel

end Files

end ChainGraph
