import ChainGraph.Main.Live
import ChainGraph.Parser.Prewarm

/-!
# Processes that read block files

The commands `ingest` and `resume` with the loader they make for themselves. The calls that load
blocks, preload a range of the index and pre-warm the cache are methods of the loader, which
remembers what it has looked up; all others are served as before.

A process that starts finds the database, the cache file and the directory of block files, which
may hold more blocks than the process before it found. What a loader remembers after a failed call
is left out: the failure ends the run.
-/

namespace ChainGraph

open Foundation

namespace Files

open Process Live

/-- A run, and its loader. -/
structure State where
  run : Process.State
  loader : SingleBlockLoader

variable (o : IngestionOrchestrator) (config : Config) (crc32 : List UInt8 → UInt32) (out : Outside)
  (describe : Halt LoaderError → String)

/-- What a call does, apart from taking time. -/
def act : (c : Op) → State → Reply c × State
  | .prewarmCache startHeight, s =>
    match s.loader.prewarmCache o.crate o.network s.run.world.memory startHeight
      config.utxoPrewarmDepth with
    | .ok (_, loader, cache) =>
      (.ok (), ⟨{ s.run with world := { s.run.world with memory := cache } }, loader⟩)
    | .error halt => (.error (describe halt), s)
  | .preloadFullRange startHeight maxHeight, s =>
    match s.loader.preloadFullRange startHeight maxHeight with
    | .ok loader => (.ok (), { s with loader })
    | .error halt => (.error (describe halt), s)
  | .loadBlock height, s =>
    match s.loader.loadBlock height with
    | .ok (found, loader) => (.ok found, { s with loader })
    | .error halt => (.error (describe halt), s)
  | c, s =>
    ((Process.act o crc32 out c s.run).1, { s with run := (Process.act o crc32 out c s.run).2 })

/-- Every call takes a moment. -/
def handle : Prog.Handler Calls State := fun c s =>
  let after := act o config crc32 out describe c s
  (after.1, { after.2 with run := { after.2.run with clock := s.run.clock + 1 } })

/-- A life of a process: the command, the last height it is given, the loader it makes, and after
how many calls it is cut off, if it is. -/
structure Life where
  command : Command
  maxHeight : ℕ
  loader : SingleBlockLoader
  cut : Option ℕ

/-- What a process leaves to the next, and how its command ended if it was not cut off. -/
def live (capacity : ℕ) (life : Life) (s : Process.State) :
    Option (Except String Unit) × Process.State :=
  let config := { config with maxHeight := life.maxHeight }
  let h := handle o config crc32 out describe
  let start : State := ⟨restarted capacity s, life.loader⟩
  match life.cut with
  | some n => (none, ((life.command.run o config).crash h n start).run)
  | none =>
    let ran := (life.command.run o config).run h start
    (some ran.1, ran.2.run)

/-- Lives one after the other: how each ended, and what the last one leaves. -/
def inTurn (one : Life → Process.State → Option (Except String Unit) × Process.State) :
    List Life → Process.State → List (Option (Except String Unit)) × Process.State
  | [], s => ([], s)
  | life :: rest, s =>
    let (ended, s) := one life s
    let (others, s) := inTurn one rest s
    (ended :: others, s)

end Files

end ChainGraph
