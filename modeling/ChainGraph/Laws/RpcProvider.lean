import ChainGraph.Laws.BlockFile
import ChainGraph.Parser.RpcProvider

/-!
# Blocks at and above the tip of a node

A node that serves a chain answers what its tip admits, and says of a height above it that it is out
of range. Below the tip the provider delivers the block. Above it the error that comes back has the
text of the request in front of the node's, so that it is not recognised: the result is an error,
and so is that of a batch which reaches above the tip.
-/

namespace ChainGraph

open Foundation Prog

namespace RpcBlockProvider

variable (p : RpcBlockProvider)

/-! ## The node -/

/-- A chain that can be served: what hexadecimal text there is for a hash decodes to the block. -/
structure ServedChain where
  tip : ℕ
  blockAt : ℕ → Block
  hashAt : ℕ → String
  hexOf : String → String
  decodes : ∀ height ≤ tip, p.decodeBlock height (hexOf (hashAt height)) = .ok (blockAt height)

/-- A successful response with a result. -/
def Result (reply : Except String HttpResponse) (result : JsonValue) : Prop :=
  ∃ response fields, reply = .ok response ∧ response.status.isSuccess = true ∧
    response.json = .ok (.object fields) ∧ fields.lookup "result" = some result ∧
    (fields.lookup "error" = none ∨ fields.lookup "error" = some .null)

/-- A response which says that a height is out of range, as an answer with status 200 or as the text
of one with status 500. -/
def OutOfRange (reply : Except String HttpResponse) : Prop :=
  ∃ response, reply = .ok response ∧
    ((response.status.code = 200 ∧ ∃ fields error, response.json = .ok (.object fields) ∧
        fields.lookup "error" = some (.object error) ∧
        error.lookup "message" = some (.string outOfRange)) ∨
      (response.status.code = 500 ∧ ∃ text, response.text = .ok text ∧
        strContains text outOfRange = true))

variable {p}

/-- The answers of a node that serves a chain. -/
structure Answers (chain : ServedChain p) (request : RpcRequest)
    (reply : Except String HttpResponse) : Prop where
  tip : request.method = "getblockcount" → request.params = [] → Result reply (.number chain.tip)
  hash : ∀ height ≤ chain.tip, request.method = "getblockhash" →
    request.params = [.number height] → Result reply (.string (chain.hashAt height))
  outOfRange : ∀ height > chain.tip, request.method = "getblockhash" →
    request.params = [.number height] → OutOfRange reply
  block : ∀ height ≤ chain.tip, request.method = "getblock" →
    request.params = [.string (chain.hashAt height), .number 0] →
    Result reply (.string (chain.hexOf (chain.hashAt height)))

/-- A node, and how it answers over time. -/
structure Node (chain : ServedChain p) (σ : Type) where
  handle : Handler rpcCalls σ
  answers : ∀ request s, Answers chain request (handle request s).1

/-! ## One request -/

section Requests

variable {A : RpcRequest → Except String HttpResponse → Prop} {request : RpcRequest}
  {result : JsonValue}

/-- The answer with a result is read as the result. -/
theorem resultOf_of_result {method : String} {fields : List (String × JsonValue)}
    (field : fields.lookup "result" = some result)
    (error : fields.lookup "error" = none ∨ fields.lookup "error" = some .null) :
    p.resultOf method (.object fields) = .ok result := by
  unfold resultOf JsonValue.get
  rcases error with absent | null
  · simp only [absent, field, Option.getD_some]
  · simp [null, field, JsonValue.isNull]

theorem yields_executeRpc (answers : ∀ reply, A request reply → Result reply result) :
    Yields (I := rpcCalls) A (fun _ => False) (· = result) (p.executeRpc request) := by
  unfold executeRpc
  apply Yields.bind Yields.perform
  intro reply answer
  obtain ⟨response, fields, rfl, success, json, field, error⟩ := answers reply answer
  simp only [success, if_true, json, resultOf_of_result field error]
  exact rfl

/-- Out of range is an error, whichever of the two responses says so. -/
theorem yields_executeRpc_outOfRange (answers : ∀ reply, A request reply → OutOfRange reply) :
    Yields (I := rpcCalls) A (fun _ => True) (fun _ => False) (p.executeRpc request) := by
  unfold executeRpc
  apply Yields.bind Yields.perform
  intro reply answer
  obtain ⟨response, rfl, ⟨code, fields, error, json, field, _⟩ | ⟨code, text, _⟩⟩ :=
    answers reply answer
  · have success : response.status.isSuccess = true := by simp [StatusCode.isSuccess, code]
    simp only [success, if_true, json, resultOf, JsonValue.get, field, JsonValue.isNull]
    exact trivial
  · have failure : response.status.isSuccess = false := by simp [StatusCode.isSuccess, code]
    simp only [failure]
    exact trivial

/-- The first attempt is enough. -/
theorem yields_rpcCall {method : String} {params : List JsonValue}
    (answers : ∀ reply, A (p.request method params) reply → Result reply result) :
    Yields (I := rpcCalls) A (fun _ => False) (· = result) (p.rpcCall method params) := by
  unfold rpcCall
  apply Yields.bind (yields_executeRpc answers).attempt
  rintro (e | value) ⟨ok, error⟩
  · exact (error e rfl).elim
  · exact ok value rfl

theorem yields_retry_outOfRange (answers : ∀ reply, A request reply → OutOfRange reply)
    (left : ℕ) (last : AnyhowError) :
    Yields (I := rpcCalls) A (fun _ => True) (fun _ => False) (p.retry request left last) := by
  induction left generalizing last with
  | zero => exact trivial
  | succ left ih =>
    unfold retry
    apply Yields.bind (yields_executeRpc_outOfRange answers).attempt
    rintro (e | value) ⟨ok, _⟩
    · exact ih e
    · exact (ok value rfl).elim

/-- All attempts fail. -/
theorem yields_rpcCall_outOfRange {method : String} {params : List JsonValue}
    (answers : ∀ reply, A (p.request method params) reply → OutOfRange reply) :
    Yields (I := rpcCalls) A (fun _ => True) (fun _ => False) (p.rpcCall method params) := by
  unfold rpcCall
  apply Yields.bind (yields_executeRpc_outOfRange answers).attempt
  rintro (e | value) ⟨ok, _⟩
  · exact yields_retry_outOfRange answers 2 e
  · exact (ok value rfl).elim

/-- With a context every failure shows the context alone. -/
theorem yields_withContext {α : Type} {E : AnyhowError → Prop} {ends : α → Prop}
    {program : Rpc α} (message : String) (yields : Yields (I := rpcCalls) A E ends program) :
    Yields (I := rpcCalls) A (fun e => e.display = message ∧ ∃ cause, E cause) ends
      (withContext message program) := by
  unfold withContext
  apply Yields.bind yields.attempt
  rintro (e | value) ⟨ok, error⟩
  · exact ⟨rfl, e, error e rfl⟩
  · exact ok value rfl

end Requests

/-! ## One block -/

variable {chain : ServedChain p}

/-- What a text does not have, no part of it has. -/
theorem strContains_eq_false {text pattern : String} {c : Char} (has : c ∈ pattern.toList)
    (lacks : c ∉ text.toList) : strContains text pattern = false := by
  unfold strContains
  rw [decide_eq_false_iff_not]
  exact fun within => lacks (within.subset has)

/-- A message of the provider about a height does not have that of the node in it. -/
theorem strContains_height {text : String} (lacks : 'B' ∉ text.toList) (height : ℕ) :
    strContains (text ++ toString height) outOfRange = false := by
  have upper : 'B' ∈ outOfRange.toList := by decide
  apply strContains_eq_false upper
  intro among
  rw [String.toList_append, List.mem_append] at among
  rcases among with among | among
  · exact lacks among
  · have among : 'B' ∈ height.repr.toList := among
    rw [Nat.toList_repr] at among
    have digit := Nat.isDigit_of_mem_toDigits (by decide) (by decide) among
    exact absurd digit (by decide)

theorem strContains_failed (height : ℕ) :
    strContains s!"getblockhash failed for height {height}" outOfRange = false :=
  strContains_height (by decide) height

theorem yields_getBlockHash {height : ℕ} (within : height ≤ chain.tip) :
    Yields (I := rpcCalls) (Answers chain) (fun _ => False) (· = chain.hashAt height)
      (p.getBlockHash height) := by
  unfold getBlockHash
  have call : Yields (I := rpcCalls) (Answers chain) (fun _ => False) (· = _)
      (p.rpcCall "getblockhash" [.number height]) :=
    yields_rpcCall fun reply answer => answer.hash height within rfl rfl
  apply Yields.bind ((yields_withContext _ call).monoError
    fun e failed => failed.2.elim fun _ => id)
  rintro _ rfl
  exact rfl

theorem yields_getBlockHash_above {height : ℕ} (above : chain.tip < height) :
    Yields (I := rpcCalls) (Answers chain)
      (fun e => e.display = s!"getblockhash failed for height {height}") (fun _ => False)
      (p.getBlockHash height) := by
  unfold getBlockHash
  have call : Yields (I := rpcCalls) (Answers chain) (fun _ => True) (fun _ => False)
      (p.rpcCall "getblockhash" [.number height]) :=
    yields_rpcCall_outOfRange fun reply answer => answer.outOfRange height above rfl rfl
  apply Yields.bind ((yields_withContext _ call).monoError fun e failed => failed.1)
  intro _ no
  exact no.elim

theorem yields_getBlockHex {height : ℕ} (within : height ≤ chain.tip) :
    Yields (I := rpcCalls) (Answers chain) (fun _ => False)
      (· = chain.hexOf (chain.hashAt height)) (p.getBlockHex (chain.hashAt height)) := by
  unfold getBlockHex
  have call : Yields (I := rpcCalls) (Answers chain) (fun _ => False) (· = _)
      (p.rpcCall "getblock" [.string (chain.hashAt height), .number 0]) :=
    yields_rpcCall fun reply answer => answer.block height within rfl rfl
  apply Yields.bind ((yields_withContext _ call).monoError
    fun e failed => failed.2.elim fun _ => id)
  rintro _ rfl
  exact rfl

/-- The block at a height, as the provider delivers it. -/
def ServedChain.located (chain : ServedChain p) (height : ℕ) : LocatedBlock :=
  ⟨height, chain.blockAt height, "rpc"⟩

/-- Up to the tip a block is found. -/
theorem meets_getBlock {height : ℕ} (within : height ≤ chain.tip) :
    Pool.Meets (I := rpcCalls) (Answers chain) (· = .ok (some (chain.located height)))
      (p.getBlock height) := by
  unfold getBlock
  apply Yields.bind (yields_getBlockHash within).attempt
  rintro (e | hash) ⟨ok, error⟩
  · exact (error e rfl).elim
  · cases ok hash rfl
    apply Yields.bind ((yields_getBlockHex within).monoError fun e no => no.elim)
    rintro _ rfl
    rw [chain.decodes height within]
    exact rfl

/-- Above the tip a block is an error. -/
theorem meets_getBlock_above {height : ℕ} (above : chain.tip < height) :
    Pool.Meets (I := rpcCalls) (Answers chain) (fun r => ∃ e, r = .error e)
      (p.getBlock height) := by
  unfold getBlock
  apply Yields.bind (yields_getBlockHash_above above).attempt
  rintro (e | hash) ⟨ok, error⟩
  · simp only [error e rfl, strContains_failed height]
    exact ⟨e, rfl⟩
  · exact (ok hash rfl).elim

/-! ## A batch -/

/-- What is fetched at a height: its block, or above the tip an error. -/
def Fetched (chain : ServedChain p) (height : ℕ)
    (r : Except AnyhowError (Option LocatedBlock)) : Prop :=
  if height ≤ chain.tip then r = .ok (some (chain.located height)) else ∃ e, r = .error e

theorem meets_fetched (height : ℕ) :
    Pool.Meets (I := rpcCalls) (Answers chain) (Fetched chain height) (p.getBlock height) := by
  by_cases within : height ≤ chain.tip
  · simp only [Pool.Meets, Fetched, within, if_true]
    exact meets_getBlock within
  · simp only [Pool.Meets, Fetched, within, if_false]
    exact meets_getBlock_above (Nat.lt_of_not_le within)

/-- The blocks of a range of heights, as far as the chain goes. -/
def ServedChain.blocks (chain : ServedChain p) (startHeight count : ℕ) : List LocatedBlock :=
  ((List.range' startHeight count).filter (· ≤ chain.tip)).map chain.located

theorem gather_eq_ok {results : List (Except AnyhowError (Option LocatedBlock))}
    (fine : ∀ r ∈ results, ∃ found, r = .ok found) :
    gather results = .ok (results.filterMap fun r => r.toOption.join) := by
  induction results with
  | nil => rfl
  | cons r rest ih =>
    obtain ⟨found, rfl⟩ := fine r List.mem_cons_self
    have ih := ih fun r among => fine r (List.mem_cons_of_mem _ among)
    cases found with
    | none => exact ih
    | some block =>
      unfold gather
      rw [ih]
      rfl

theorem gather_eq_error {results : List (Except AnyhowError (Option LocatedBlock))}
    {e : AnyhowError} (among : .error e ∈ results) : ∃ e', gather results = .error e' := by
  induction results with
  | nil => cases among
  | cons r rest ih =>
    cases r with
    | error e' => exact ⟨e', rfl⟩
    | ok found =>
      obtain ⟨e', failed⟩ := ih ((List.mem_cons.mp among).resolve_left (by intro no; cases no))
      cases found with
      | none => exact ⟨e', failed⟩
      | some block =>
        refine ⟨e', ?_⟩
        unfold gather
        rw [failed]
        rfl

theorem batchHeights_eq {startHeight count : ℕ} (small : startHeight + count < 2 ^ 32) :
    batchHeights startHeight count = List.range' startHeight count := by
  unfold batchHeights
  rw [asU32_of_lt (by omega), List.range'_eq_map_range]
  apply List.map_congr_left
  intro offset among
  rw [List.mem_range] at among
  exact asU32_of_lt (by omega)

/-- Sorting by height puts blocks at different heights in the one order there is. -/
theorem mergeSort_eq_of_perm {blocks sorted : List LocatedBlock} (perm : blocks.Perm sorted)
    (rising : sorted.Pairwise fun a b => a.height < b.height) :
    (blocks.mergeSort fun a b => a.height ≤ b.height) = sorted := by
  apply @List.Perm.eq_of_pairwise LocatedBlock fun a b => a.height ≤ b.height
  · intro a b left right le ge
    rw [List.mem_mergeSort, perm.mem_iff] at left
    have apart : sorted.Pairwise fun a b => a.height ≠ b.height := rising.imp Nat.ne_of_lt
    have symm : Std.Symm fun a b : LocatedBlock => a.height ≠ b.height := ⟨fun _ _ => Ne.symm⟩
    by_contra other
    exact apart.forall left right other (Nat.le_antisymm le ge)
  · have order := @List.pairwise_mergeSort LocatedBlock (fun a b => a.height ≤ b.height)
      (by simp only [decide_eq_true_eq]; intro a b c; exact Nat.le_trans)
      (by intro a b; simpa using Nat.le_total a.height b.height) blocks
    exact order.imp fun le => of_decide_eq_true le
  · exact rising.imp Nat.le_of_lt
  · exact (List.mergeSort_perm blocks _).trans perm

theorem mergeSort_eq_blocks {startHeight count : ℕ} {blocks : List LocatedBlock}
    (perm : blocks.Perm (chain.blocks startHeight count)) :
    (blocks.mergeSort fun a b => a.height ≤ b.height) = chain.blocks startHeight count := by
  apply mergeSort_eq_of_perm perm
  unfold ServedChain.blocks
  rw [List.pairwise_map]
  exact List.Pairwise.filter _ List.pairwise_lt_range'

/-- In whatever order the blocks of some heights come in, the batch is in the order of height. -/
theorem finishBatch_of_fetched {results : List (Except AnyhowError (Option LocatedBlock))}
    {startHeight count : ℕ} (within : ∀ height ∈ List.range' startHeight count, height ≤ chain.tip)
    (fetched : Multiset.Rel (fun r height => Fetched chain height r) results
      (List.range' startHeight count)) :
    finishBatch results = .ok (chain.blocks startHeight count) := by
  let fine (height : ℕ) : Except AnyhowError (Option LocatedBlock) :=
    .ok (some (chain.located height))
  have perm : results.Perm ((List.range' startHeight count).map fine) := by
    rw [← Multiset.coe_eq_coe, ← Multiset.map_coe, ← Multiset.rel_eq, Multiset.rel_map_right]
    apply fetched.mono
    intro r _ height among met
    rw [Fetched, if_pos (within height (Multiset.mem_coe.mp among))] at met
    exact met
  have found : gather results = .ok (results.filterMap fun r => r.toOption.join) := by
    apply gather_eq_ok
    intro r among
    obtain ⟨height, _, rfl⟩ := List.mem_map.mp (perm.mem_iff.mp among)
    exact ⟨_, rfl⟩
  have all : chain.blocks startHeight count =
      (List.range' startHeight count).map chain.located := by
    unfold ServedChain.blocks
    rw [List.filter_eq_self.mpr]
    exact fun height among => decide_eq_true (within height among)
  have blocks : (results.filterMap fun r => r.toOption.join).Perm
      (chain.blocks startHeight count) := by
    have same := perm.filterMap fun r => r.toOption.join
    rw [List.filterMap_map] at same
    rw [all, ← List.filterMap_eq_map]
    exact same
  unfold finishBatch
  rw [found]
  exact congrArg Except.ok (mergeSort_eq_blocks blocks)

/-- One height above the tip makes the batch an error. -/
theorem finishBatch_of_above {results : List (Except AnyhowError (Option LocatedBlock))}
    {heights : List ℕ} {height : ℕ} (among : height ∈ heights) (above : chain.tip < height)
    (fetched : Multiset.Rel (fun r height => Fetched chain height r) results heights) :
    ∃ e, finishBatch results = .error e := by
  obtain ⟨r, got, met⟩ := Multiset.exists_mem_of_rel_of_mem
    (Multiset.rel_flip.mpr fetched) (Multiset.mem_coe.mpr among)
  obtain ⟨e, rfl⟩ : ∃ e, r = .error e := by
    have met : Fetched chain height r := met
    rwa [Fetched, if_neg (Nat.not_le_of_lt above)] at met
  obtain ⟨e', failed⟩ := gather_eq_error (Multiset.mem_coe.mp got)
  exact ⟨e', by rw [finishBatch, failed]; rfl⟩

section Batch

variable {σ : Type} (node : Node chain σ) (s : σ)

/-- Where the runs of a batch end. -/
theorem ends_batch {startHeight count : ℕ} (small : startHeight + count < 2 ^ 32)
    (room : 0 < p.maxConcurrent) :
    Ends (Pool.Step node.handle p.maxConcurrent)
      (fun x => x.1.Finished ∧ Multiset.Rel (fun r height => Fetched chain height r) x.1.done
        (List.range' startHeight count)) (p.batch startHeight count, s) := by
  unfold batch
  rw [batchHeights_eq small]
  exact Pool.ends_of_meets node.answers room (fun height _ => meets_fetched height) s

theorem batchReturns_blocks {startHeight count : ℕ} (small : startHeight + count < 2 ^ 32)
    (room : 0 < p.maxConcurrent) (within : count = 0 ∨ startHeight + count ≤ chain.tip + 1) :
    p.BatchReturns node.handle s startHeight count (.ok (chain.blocks startHeight count)) := by
  apply (ends_batch node s small room).mono
  rintro x ⟨finished, fetched⟩
  refine ⟨finished, finishBatch_of_fetched ?_ fetched⟩
  intro height among
  rw [List.mem_range'_1] at among
  omega

/-- A provider that may not have a request under way never returns. -/
theorem room_of_batchReturns {startHeight count : ℕ}
    {result : Except AnyhowError (List LocatedBlock)}
    (returns : p.BatchReturns node.handle s startHeight count result) : 0 < p.maxConcurrent := by
  by_contra none
  have none : p.maxConcurrent = 0 := by omega
  unfold BatchReturns at returns
  rw [none] at returns
  exact Pool.not_ends_of_no_room (fun _ => And.left) _ s returns

theorem not_batchReturns_ok {startHeight count : ℕ} (small : startHeight + count < 2 ^ 32)
    (beyond : count ≠ 0 ∧ chain.tip + 1 < startHeight + count) (blocks : List LocatedBlock) :
    ¬ p.BatchReturns node.handle s startHeight count (.ok blocks) := by
  intro returns
  have room := room_of_batchReturns node s returns
  obtain ⟨x, ⟨_, same⟩, _, fetched⟩ := returns.meet (ends_batch node s small room)
  have last : startHeight + count - 1 ∈ List.range' startHeight count := by
    rw [List.mem_range'_1]
    omega
  obtain ⟨e, failed⟩ := finishBatch_of_above last (by omega) fetched
  rw [failed] at same
  cases same

end Batch

/-! ## Whatever the requests are answered -/

section Given

variable {A : RpcRequest → Except String HttpResponse → Prop}

/-- No error of `get_block_hash` is recognised as a height above the tip. -/
theorem yields_getBlockHash_given (height : ℕ) :
    Yields (I := rpcCalls) A (fun e => strContains e.display outOfRange = false) (fun _ => True)
      (p.getBlockHash height) := by
  unfold getBlockHash
  have call : Yields (I := rpcCalls) A (fun _ => True) (fun _ => True)
      (p.rpcCall "getblockhash" [.number height]) := yields_true _
  apply Yields.bind ((yields_withContext _ call).monoError fun e failed =>
    (congrArg (strContains · outOfRange) failed.1).trans (strContains_failed height))
  intro result _
  cases result.asStr with
  | none => exact strContains_height (by decide) height
  | some hash => exact trivial

/-- What `get_block` ends with: a block at the height, or an error. It never says that there is
none. -/
def Given (height : ℕ) (r : Except AnyhowError (Option LocatedBlock)) : Prop :=
  (∃ e, r = .error e) ∨ ∃ block, r = .ok (some ⟨height, block, "rpc"⟩)

theorem meets_given (height : ℕ) :
    Pool.Meets (I := rpcCalls) A (Given height) (p.getBlock height) := by
  unfold getBlock
  apply Yields.bind (yields_getBlockHash_given height).attempt
  rintro (e | hash) ⟨-, error⟩
  · simp only [error e rfl]
    exact Or.inl ⟨e, rfl⟩
  · apply Yields.bind ((yields_true (p.getBlockHex hash)).monoError fun e _ => Or.inl ⟨e, rfl⟩)
    intro hexText _
    apply Yields.bind (Yields.ofExcept (fun _ _ => trivial) fun e _ => Or.inl ⟨e, rfl⟩)
    exact fun block _ => Or.inr ⟨block, rfl⟩

end Given

/-! ## The provider -/

/-- What is expected of a height: its block up to the tip, and nothing above. -/
def ServedChain.find (chain : ServedChain p) (height : ℕ) : Option LocatedBlock :=
  if height ≤ chain.tip then some (chain.located height) else none

theorem run_getBlock_iff {σ : Type} (node : Node chain σ) (s : σ) (height : ℕ) :
    ((p.getBlock height).run node.handle s).1 = .ok (chain.find height) ↔ height ≤ chain.tip := by
  have meets : Pool.Meets (I := rpcCalls) (Answers chain) _ (p.getBlock height) :=
    meets_fetched height
  have fetched := meets.run node.answers s
  unfold Fetched at fetched
  constructor
  · intro found
    by_contra above
    rw [if_neg above] at fetched
    obtain ⟨e, failed⟩ := fetched
    rw [failed] at found
    cases found
  · intro within
    rw [if_pos within] at fetched
    rw [fetched, ServedChain.find, if_pos within]

/-- **Past the tip.** A single block is what is expected of its height iff the height is at most the
tip, and a batch iff it asks for none above it, and the provider may have a request under way. -/
theorem served_iff {σ : Type} (node : Node chain σ) (s : σ) (height startHeight count : ℕ)
    (small : startHeight + count < 2 ^ 32) :
    (((p.getBlock height).run node.handle s).1 = .ok (chain.find height) ↔ height ≤ chain.tip) ∧
      (p.BatchReturns node.handle s startHeight count (.ok (chain.blocks startHeight count)) ↔
        0 < p.maxConcurrent ∧ (count = 0 ∨ startHeight + count ≤ chain.tip + 1)) := by
  refine ⟨run_getBlock_iff node s height, ?_⟩
  constructor
  · intro returns
    refine ⟨room_of_batchReturns node s returns, ?_⟩
    by_contra beyond
    exact not_batchReturns_ok node s small (by omega) _ returns
  · rintro ⟨room, within⟩
    exact batchReturns_blocks node s small room within

end RpcBlockProvider

/-! ## A node with the first blocks -/

namespace Sample

open RpcBlockProvider

/-- A provider with the default limits, and a deserializer as far as the first blocks go. -/
def provider : RpcBlockProvider where
  url := "http://127.0.0.1:8332"
  user := "bitcoin"
  password := ""
  batchSize := 50
  maxConcurrent := 32
  render := fun _ => ""
  hexDecode := fun text =>
    match Hex.decode text.toList with
    | some bytes => .ok bytes
    | none => .error "Odd number of digits"
  deserialize := deserializeMain

def mainBlock : ℕ → Block
  | 0 => genesis
  | 1 => blockOne
  | _ => blockTwo

def mainHash : ℕ → String
  | 0 => "000000000019d6689c085ae165831e934ff763ae46a2a6c172b3f1b60a8ce26f"
  | 1 => "00000000839a8e6886ab5951d76f411475428afc90947ee320161bbf18eb6048"
  | _ => "000000006a625f06636b8bb6ac7b960a8d03705d1ace08b1a19da3fdcc99ddbd"

/-- The bytes of a block as they are printed. -/
@[irreducible] def hexText (b : Block) : String := String.ofList (Hex.encode (serializeMain b))

/-- The block with a hash, as it is printed. -/
def mainHex (hash : String) : String :=
  hexText (if hash = mainHash 0 then genesis else if hash = mainHash 1 then blockOne else blockTwo)

theorem mainHex_mainHash : ∀ height, mainHex (mainHash height) = hexText (mainBlock height)
  | 0 => rfl
  | 1 => rfl
  | _ + 2 => rfl

theorem decodeBlock_hexText {b : Block} (mem : b ∈ mainBlocks.map Prod.fst) (height : ℕ) :
    provider.decodeBlock height (hexText b) = .ok b := by
  have decoded : provider.hexDecode (hexText b) = .ok (serializeMain b) := by
    simp [provider, hexText, Hex.decode_encode]
  unfold decodeBlock
  rw [decoded]
  dsimp only
  rw [show provider.deserialize (serializeMain b) = .ok b from (framed_mainBlocks b mem).inverse]

/-- The first blocks up to a tip. -/
def mainChain (tip : ℕ) : ServedChain provider where
  tip := tip
  blockAt := mainBlock
  hashAt := mainHash
  hexOf := mainHex
  decodes := by
    intro height _
    rw [mainHex_mainHash]
    refine decodeBlock_hexText ?_ height
    match height with
    | 0 => exact .head _
    | 1 => exact .tail _ (.head _)
    | _ + 2 => exact .tail _ (.tail _ (.head _))

def served (result : JsonValue) : Except String HttpResponse :=
  .ok ⟨⟨200, "200 OK"⟩, .error "", .ok (.object [("result", result), ("error", .null)])⟩

def refused : Except String HttpResponse :=
  .ok ⟨⟨500, "500 Internal Server Error"⟩, .ok outOfRange, .error ""⟩

/-- The answers of a node with these blocks. -/
def mainReply (tip : ℕ) (request : RpcRequest) : Except String HttpResponse :=
  if request.method = "getblockcount" then served (.number tip)
  else
    match request.params with
    | [.number height] =>
      if height ≤ tip then served (.string (mainHash height.toNat)) else refused
    | [.string hash, _] => served (.string (mainHex hash))
    | _ => refused

theorem result_served (result : JsonValue) : Result (served result) result :=
  ⟨_, _, rfl, rfl, rfl, rfl, Or.inr rfl⟩

theorem outOfRange_refused : OutOfRange refused :=
  ⟨_, rfl, Or.inr ⟨rfl, outOfRange, rfl, by decide⟩⟩

def mainNode (tip : ℕ) : Node (mainChain tip) Unit where
  handle := fun request _ => (mainReply tip request, ())
  answers := by
    intro request _
    refine ⟨?_, ?_, ?_, ?_⟩
    · intro method _
      simp only [mainReply, method, if_true]
      exact result_served _
    · intro height (within : height ≤ tip) method params
      simp [mainReply, method, params, within]
      exact result_served _
    · intro height (above : tip < height) method params
      simp [mainReply, method, params, Nat.not_le.mpr above]
      exact outOfRange_refused
    · intro height _ method params
      simp [mainReply, method, params]
      exact result_served _

end Sample

/-- Up to the tip of a node with three blocks both are what is expected. -/
theorem served_iff_sample :
    ((Sample.provider.getBlock 2).run (Sample.mainNode 2).handle ()).1 =
        .ok (some ⟨2, Sample.blockTwo, "rpc"⟩) ∧
      Sample.provider.BatchReturns (Sample.mainNode 2).handle () 0 3
        (.ok [⟨0, Sample.genesis, "rpc"⟩, ⟨1, Sample.blockOne, "rpc"⟩,
          ⟨2, Sample.blockTwo, "rpc"⟩]) := by
  obtain ⟨single, batch⟩ :=
    RpcBlockProvider.served_iff (Sample.mainNode 2) () 2 0 3 (by decide)
  constructor
  · exact single.mpr (Nat.le_refl 2)
  · apply batch.mpr
    exact ⟨Nat.zero_lt_succ 31, Or.inr (Nat.le_refl 3)⟩

/-- Above the tip the result is an error, and so is a batch from the genesis block on. -/
theorem past_tip_is_error :
    ((Sample.provider.getBlock 1).run (Sample.mainNode 0).handle ()).1 =
        .error ⟨"getblockhash failed for height 1", ["RPC HTTP error 500 Internal Server Error " ++
          "for getblockhash: Block height out of range"]⟩ ∧
      ¬ Sample.provider.BatchReturns (Sample.mainNode 0).handle () 0 2
        (.ok [⟨0, Sample.genesis, "rpc"⟩]) := by
  refine ⟨by decide +kernel, ?_⟩
  exact RpcBlockProvider.not_batchReturns_ok (Sample.mainNode 0) () (by decide) (by decide) _

end ChainGraph
