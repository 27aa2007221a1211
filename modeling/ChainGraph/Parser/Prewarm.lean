import ChainGraph.Domain.Ingestion
import ChainGraph.Parser.SingleBlockLoader

/-!
# Pre-warming the cache

Before ingestion starts, the outputs of recent blocks are put into the cache: of all blocks
backwards from a height, or only those that the next blocks spend. Both walks convert an output with
a classifier of their own instead of `extract_address`. Progress messages are left out.
-/

namespace ChainGraph

open Foundation

namespace Script

/-- A script of this length with a witness version of 0 and this push. -/
def isV0Of (length : ℕ) (push : UInt8) (s : Script) : Bool :=
  s.length = length ∧ witnessVersion s = some 0 ∧ s[1]? = some push

def isP2wpkh (s : Script) : Bool := isV0Of 22 0x14 s

def isP2wsh (s : Script) : Bool := isV0Of 34 0x20 s

end Script

/-- The script type a walk stores. -/
def prewarmScriptType (s : Script) : ScriptType :=
  if Script.isP2pkh s then .P2PKH
  else if Script.isP2sh s then .P2SH
  else if Script.isP2wpkh s then .P2WPKH
  else if Script.isP2wsh s then .P2WSH
  else if Script.isOpReturn s then .NullData
  else .Unknown

/-- The cache entry a walk makes of an output. -/
def prewarmOutput (crate : AddressCrate) (network : Network) (vout : ℕ) (output : TxOut) :
    CachedOutput where
  outputIndex := vout
  amount := output.value
  scriptType := prewarmScriptType output.scriptPubkey
  address := crate.fromScript output.scriptPubkey network

/-- The entries of a block's outputs, in order. -/
def prewarmEntries (crate : AddressCrate) (network : Network) (block : Block) :
    List (UtxoKey × CachedOutput) :=
  block.txdata.flatMap fun tx => tx.output.zipIdx.map fun (output, vout) =>
    (.fromOutpoint ⟨tx.txid, asU32 vout⟩, prewarmOutput crate network (asU32 vout) output)

/-- Insert entries until a shard refuses one; whether all were taken. -/
def prewarmInsert : List (UtxoKey × CachedOutput) → UtxoCache → Bool × UtxoCache
  | [], cache => (true, cache)
  | entry :: rest, cache =>
    match cache.insertPrewarm entry.1 entry.2 with
    | (true, cache) => prewarmInsert rest cache
    | (false, cache) => (false, cache)

/-- Insert the entries that are needed, each of them once; a refusal is passed over. -/
def prewarmNeeded (entries : List (UtxoKey × CachedOutput)) (needed : Finset UtxoKey)
    (found : ℕ) (cache : UtxoCache) : Finset UtxoKey × ℕ × UtxoCache :=
  entries.foldl (fun (needed, found, cache) entry =>
    if entry.1 ∈ needed then
      (needed.erase entry.1, found + 1, (cache.insertPrewarm entry.1 entry.2).2)
    else (needed, found, cache)) (needed, found, cache)

namespace SingleBlockLoader

variable (crate : AddressCrate) (network : Network)

/-- The walk backwards: `remaining` more blocks may be loaded, and `loaded` were. -/
def prewarmBack : ℕ → ℕ → ℕ → SingleBlockLoader → UtxoCache →
    Checked LoaderError (ℕ × SingleBlockLoader × UtxoCache)
  | 0, loaded, _, l, cache => pure (loaded, l, cache)
  | remaining + 1, loaded, currentHeight, l, cache =>
    if ! cache.hasCapacity then pure (loaded, l, cache)
    else if currentHeight = 0 then pure (loaded, l, cache)
    else do
      let (data, l) ← l.loadBlock currentHeight
      match data with
      | none => pure (loaded, l, cache)
      | some located =>
        match prewarmInsert (prewarmEntries crate network located.block) cache with
        | (false, cache) => pure (loaded, l, cache)
        | (true, cache) => prewarmBack remaining (loaded + 1) (currentHeight - 1) l cache

/-- Pre-warm the cache with the blocks below a height. -/
def prewarmCache (l : SingleBlockLoader) (cache : UtxoCache) (startHeight maxBlocks : ℕ) :
    Checked LoaderError (ℕ × SingleBlockLoader × UtxoCache) :=
  if startHeight = 0 then pure (0, l, cache)
  else do
    let l ← l.preloadFullRange (startHeight - maxBlocks) (startHeight - 1)
    prewarmBack crate network maxBlocks 0 (startHeight - 1) l cache

/-- The keys that the blocks at some heights spend and the cache does not have, and the number of
blocks there were. -/
def scanForward (cache : UtxoCache) : List ℕ → Finset UtxoKey → ℕ → SingleBlockLoader →
    Checked LoaderError (Finset UtxoKey × ℕ × SingleBlockLoader)
  | [], needed, scanned, l => pure (needed, scanned, l)
  | height :: rest, needed, scanned, l => do
    let (data, l) ← l.loadBlock height
    match data with
    | none => scanForward cache rest needed scanned l
    | some located =>
      let spent := (located.block.txdata.flatMap Transaction.inputKeys).filter
        fun key => ! cache.contains key
      scanForward cache rest (needed ∪ spent.toFinset) (scanned + 1) l

/-- The walk backwards for the needed keys. -/
def prewarmBackTargeted : ℕ → ℕ → ℕ → ℕ → Finset UtxoKey → SingleBlockLoader → UtxoCache →
    Checked LoaderError (ℕ × ℕ × SingleBlockLoader × UtxoCache)
  | 0, loaded, found, _, _, l, cache => pure (loaded, found, l, cache)
  | remaining + 1, loaded, found, currentHeight, needed, l, cache =>
    if needed = ∅ ∨ currentHeight = 0 then pure (loaded, found, l, cache)
    else if ! cache.hasCapacity then pure (loaded, found, l, cache)
    else do
      let (data, l) ← l.loadBlock currentHeight
      match data with
      | none => pure (loaded, found, l, cache)
      | some located =>
        let (needed, found, cache) :=
          prewarmNeeded (prewarmEntries crate network located.block) needed found cache
        prewarmBackTargeted remaining (loaded + 1) found (currentHeight - 1) needed l cache

/-- The last height scanned forward: `saturating_add`, and at most the end of the chain. -/
def scanEnd (startHeight scanAhead endHeight : ℕ) : ℕ :=
  min (min (startHeight + scanAhead) (2 ^ 32 - 1)) endHeight

/-- Pre-warm the cache with the outputs that the blocks from a height on spend. -/
def prewarmCacheTargeted (l : SingleBlockLoader) (cache : UtxoCache)
    (startHeight scanAhead maxBackward endHeight : ℕ) :
    Checked LoaderError ((ℕ × ℕ × ℕ) × SingleBlockLoader × UtxoCache) :=
  if startHeight = 0 then pure ((0, 0, 0), l, cache)
  else do
    let scanEnd := scanEnd startHeight scanAhead endHeight
    let l ← l.preloadFullRange startHeight scanEnd
    let (needed, scanned, l) ←
      scanForward cache (List.range' startHeight (scanEnd + 1 - startHeight)) ∅ 0 l
    if needed = ∅ then pure ((scanned, 0, 0), l, cache)
    else do
      let l ← l.preloadFullRange (startHeight - maxBackward) (startHeight - 1)
      let (loaded, found, l, cache) ←
        prewarmBackTargeted crate network maxBackward 0 0 (startHeight - 1) needed l cache
      pure ((scanned, loaded, found), l, cache)

end SingleBlockLoader

end ChainGraph
