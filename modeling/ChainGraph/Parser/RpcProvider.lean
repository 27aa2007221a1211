import ChainGraph.Domain.Models
import ChainGraph.Foundation.Pool
import ChainGraph.Parser.Block

/-!
# The block provider of a live node

Blocks fetched by JSON-RPC: a hash by its height, a block by its hash, as hexadecimal text. A
request is made up to three times. What the HTTP client, the JSON parser and the crates that decode
a block do are answers and parameters; the pauses between the attempts are left out.
-/

namespace ChainGraph

open Foundation Prog

/-! ## Errors with their context -/

/-- `anyhow::Error`: a message, and the messages it was put in front of. -/
structure AnyhowError where
  message : String
  causes : List String
deriving DecidableEq, Repr

namespace AnyhowError

/-- `anyhow!` and `bail!`. -/
def msg (message : String) : AnyhowError := ⟨message, []⟩

/-- `context`. -/
def context (message : String) (e : AnyhowError) : AnyhowError := ⟨message, e.message :: e.causes⟩

/-- What `{}` prints: the outermost message. -/
def display (e : AnyhowError) : String := e.message

end AnyhowError

/-- `str::contains`. -/
def strContains (text pattern : String) : Bool := pattern.toList <:+: text.toList

/-! ## JSON -/

/-- A JSON value; the numbers the provider handles are integers. -/
inductive JsonValue where
  | null
  | bool (b : Bool)
  | number (n : ℤ)
  | string (s : String)
  | array (items : List JsonValue)
  | object (fields : List (String × JsonValue))

namespace JsonValue

/-- `get`, for a field of an object. -/
def get : JsonValue → String → Option JsonValue
  | object fields, name => fields.lookup name
  | _, _ => none

def isNull : JsonValue → Bool
  | null => true
  | _ => false

def asStr : JsonValue → Option String
  | string s => some s
  | _ => none

def asU64 : JsonValue → Option ℕ
  | number n => if 0 ≤ n ∧ n < 2 ^ 64 then some n.toNat else none
  | _ => none

end JsonValue

/-! ## Requests -/

/-- A status code and its text. -/
structure StatusCode where
  code : ℕ
  text : String

def StatusCode.isSuccess (status : StatusCode) : Bool := 200 ≤ status.code ∧ status.code < 300

/-- A response, whose body is read as text or as JSON. -/
structure HttpResponse where
  status : StatusCode
  text : Except String String
  json : Except String JsonValue

/-- A call of the node, with the credentials of the client. -/
structure RpcRequest where
  url : String
  user : String
  password : String
  method : String
  params : List JsonValue

/-- Requests are answered by a response, or cannot be sent. -/
abbrev rpcCalls : Interface where
  Op := RpcRequest
  Reply := fun _ => Except String HttpResponse

/-- The provider, with the crates it decodes blocks with. -/
structure RpcBlockProvider where
  url : String
  user : String
  password : String
  batchSize : ℕ
  maxConcurrent : ℕ
  /-- How a JSON value is printed. -/
  render : JsonValue → String
  /-- `hex::decode`. -/
  hexDecode : String → Except String (List UInt8)
  /-- `bitcoin::consensus::deserialize`. -/
  deserialize : List UInt8 → Except String Block

namespace RpcBlockProvider

abbrev Rpc := Prog rpcCalls AnyhowError

variable (p : RpcBlockProvider)

def request (method : String) (params : List JsonValue) : RpcRequest :=
  ⟨p.url, p.user, p.password, method, params⟩

/-- `Result::with_context`, on what a program fails with. -/
def withContext {α : Type} (message : String) (program : Rpc α) : Rpc α := do
  match ← program.attempt with
  | .ok a => pure a
  | .error e => throw (e.context message)

/-- `Option::with_context`. -/
def orMsg {α : Type} (message : String) : Option α → Rpc α
  | some a => pure a
  | none => throw (.msg message)

/-- The result in a JSON-RPC answer, unless it carries an error. -/
def resultOf (method : String) (answer : JsonValue) : Except AnyhowError JsonValue :=
  match answer.get "error" with
  | none => .ok ((answer.get "result").getD .null)
  | some error =>
    if error.isNull then .ok ((answer.get "result").getD .null)
    else .error (.msg s!"RPC error for {method}: {p.render error}")

/-- Execute a single request. -/
def executeRpc (request : RpcRequest) : Rpc JsonValue := do
  match ← perform (I := rpcCalls) request with
  | .error cause => throw ((AnyhowError.msg cause).context "RPC request failed")
  | .ok response =>
    if response.status.isSuccess then
      match response.json with
      | .error cause => throw ((AnyhowError.msg cause).context "Failed to parse RPC response JSON")
      | .ok answer => Prog.ofExcept (p.resultOf request.method answer)
    else
      let text := response.text.toOption.getD ""
      throw (.msg s!"RPC HTTP error {response.status.text} for {request.method}: {text}")

/-- The attempts that are left after one that failed. -/
def retry (request : RpcRequest) : ℕ → AnyhowError → Rpc JsonValue
  | 0, lastError => throw lastError
  | left + 1, _ => do
    match ← (p.executeRpc request).attempt with
    | .ok result => pure result
    | .error e => retry request left e

/-- A call with its three attempts; the error is that of the last. -/
def rpcCall (method : String) (params : List JsonValue) : Rpc JsonValue := do
  match ← (p.executeRpc (p.request method params)).attempt with
  | .ok result => pure result
  | .error e => p.retry (p.request method params) 2 e

/-! ## Blocks -/

def getTipHeight : Rpc ℕ := do
  let result ← withContext "getblockcount failed" (p.rpcCall "getblockcount" [])
  orMsg "Invalid block count from RPC" (result.asU64.map asU32)

def getBlockHash (height : ℕ) : Rpc String := do
  let result ← withContext s!"getblockhash failed for height {height}"
    (p.rpcCall "getblockhash" [.number height])
  orMsg s!"Invalid block hash from RPC for height {height}" result.asStr

def getBlockHex (hash : String) : Rpc String := do
  let result ← withContext s!"getblock (hex) failed for hash {hash}"
    (p.rpcCall "getblock" [.string hash, .number 0])
  orMsg s!"Invalid block hex from RPC for hash {hash}" result.asStr

/-- The block in its hexadecimal text. -/
def decodeBlock (height : ℕ) (hexText : String) : Except AnyhowError Block :=
  match p.hexDecode hexText with
  | .error cause =>
    .error ((AnyhowError.msg cause).context s!"Failed to decode block hex at height {height}")
  | .ok bytes =>
    match p.deserialize bytes with
    | .error cause =>
      .error ((AnyhowError.msg cause).context s!"Failed to deserialize block at height {height}")
    | .ok block => .ok block

/-- The message of the node for a height above its tip. -/
def outOfRange : String := "Block height out of range"

/-- Fetch a single block by height. -/
def getBlock (height : ℕ) : Rpc (Option LocatedBlock) := do
  match ← (p.getBlockHash height).attempt with
  | .error e => if strContains e.display outOfRange then pure none else throw e
  | .ok hash => do
    let hexText ← p.getBlockHex hash
    let block ← Prog.ofExcept (p.decodeBlock height hexText)
    pure (some ⟨height, block, "rpc"⟩)

/-- The blocks among the results, up to the first error. -/
def gather : List (Except AnyhowError (Option LocatedBlock)) →
    Except AnyhowError (List LocatedBlock)
  | [] => .ok []
  | .error e :: _ => .error e
  | .ok none :: rest => gather rest
  | .ok (some block) :: rest => (gather rest).map (block :: ·)

/-- What a batch makes of the results, in the order in which they came in. -/
def finishBatch (results : List (Except AnyhowError (Option LocatedBlock))) :
    Except AnyhowError (List LocatedBlock) :=
  (gather results).map fun blocks => blocks.mergeSort fun a b => a.height ≤ b.height

/-- The heights of a batch. -/
def batchHeights (startHeight count : ℕ) : List ℕ :=
  (List.range (asU32 count)).map fun offset => asU32 (startHeight + offset)

/-- The requests of a batch. At most `maxConcurrent` of its blocks are fetched at a time. -/
def batch (startHeight count : ℕ) : Pool rpcCalls AnyhowError (Option LocatedBlock) :=
  .start ((batchHeights startHeight count).map p.getBlock)

/-- In whatever order its requests are answered, `get_block_batch` returns the result. -/
def BatchReturns {σ : Type} (node : Handler rpcCalls σ) (s : σ) (startHeight count : ℕ)
    (result : Except AnyhowError (List LocatedBlock)) : Prop :=
  Ends (Pool.Step node p.maxConcurrent)
    (fun x => x.1.Finished ∧ finishBatch x.1.done = result) (p.batch startHeight count, s)

end RpcBlockProvider

end ChainGraph
