import ChainGraph.Foundation.Bytes
import ChainGraph.Foundation.Hex
import ChainGraph.Parser.RpcProvider

/-!
# The listener for new blocks

Notifications of a node come as multipart messages with a topic, a block hash and a sequence number.
The listener reads the hash, counts what it sees, and notices a sequence number that does not follow
the last. It drops its socket when receiving fails, and connects again before the next message.

The socket library is an interface: what is asked of a socket, and the answers. A method answers its
result together with the listener it leaves. Sums and products of machine words wrap, as they do in
a release build, and the counters always do.
-/

namespace ChainGraph

open Foundation Prog

/-! ## Messages -/

/-- `str::from_utf8(..).unwrap_or("<non-utf8>")`. -/
def topicOf (frame : List UInt8) : String := (String.fromUTF8? ⟨frame.toArray⟩).getD "<non-utf8>"

/-- The sequence number in the frames after the hash. -/
def sequenceOf : List (List UInt8) → Option UInt32
  | frame :: _ => if frame.length = 4 then some (.ofNat (ofLe frame)) else none
  | [] => none

/-- The hash of a message, as the node prints it, and its sequence number. -/
def parseHashblockMessage : List (List UInt8) → Except AnyhowError (String × Option UInt32)
  | topic :: hash :: rest =>
    if topicOf topic ≠ "hashblock" then
      .error (.msg s!"Unexpected ZMQ topic: expected 'hashblock', got '{topicOf topic}'")
    else if hash.length ≠ 32 then
      .error (.msg s!"Invalid block hash length: expected 32 bytes, got {hash.length}")
    else .ok (String.ofList (Hex.encode hash.reverse), sequenceOf rest)
  | frames =>
    .error (.msg s!"Invalid ZMQ message: expected at least 2 frames, got {frames.length}")

/-! ## Sockets -/

/-- What a wait for a message ends with. -/
inductive Received where
  | message (frames : List (List UInt8))
  | failed (cause : String)
  | timedOut

/-- What is asked of a socket and of the clock. -/
inductive ZmqOp where
  /-- A new socket, connected. -/
  | connect (endpoint : String)
  | subscribe (topic : String)
  /-- Wait for a message, for so many seconds. -/
  | recv (timeout : UInt64)
  | sleep (ms : UInt64)

@[reducible] def ZmqReply : ZmqOp → Type
  | .connect _ => Except String Unit
  | .subscribe _ => Except String Unit
  | .recv _ => Received
  | .sleep _ => Unit

abbrev zmqCalls : Interface := ⟨ZmqOp, ZmqReply⟩

/-! ## The listener -/

/-- The counters; each is one atomic word. -/
structure ZmqListenerStats where
  messagesReceived : UInt64
  reconnections : UInt64
  recvErrors : UInt64
  parseErrors : UInt64
  sequenceGaps : UInt64
deriving DecidableEq, Repr

/-- `AtomicZmqStats::new`. -/
def ZmqListenerStats.zero : ZmqListenerStats := ⟨0, 0, 0, 0, 0⟩

structure ZmqBlockListener where
  endpoint : String
  /-- Whether there is a socket. -/
  socket : Bool
  maxReconnectAttempts : ℕ
  reconnectBaseDelayMs : UInt64
  /-- In seconds. -/
  recvTimeout : UInt64
  lastSequence : Option UInt32
  stats : ZmqListenerStats
deriving DecidableEq, Repr

namespace ZmqBlockListener

/-- `ZmqBlockListener::new`. -/
def new (endpoint : String) : ZmqBlockListener where
  endpoint := endpoint
  socket := false
  maxReconnectAttempts := 5
  reconnectBaseDelayMs := 1000
  recvTimeout := 60 * 60
  lastSequence := none
  stats := .zero

/-- `from_config`, from the settings it reads. -/
def fromConfig (zmqEndpoint : String) (zmqMaxReconnectAttempts : ℕ)
    (zmqReconnectBaseDelayMs zmqRecvTimeoutMins : UInt64) : ZmqBlockListener where
  endpoint := zmqEndpoint
  socket := false
  maxReconnectAttempts := zmqMaxReconnectAttempts
  reconnectBaseDelayMs := zmqReconnectBaseDelayMs
  recvTimeout := if zmqRecvTimeoutMins > 0 then zmqRecvTimeoutMins * 60 else .ofNat (2 ^ 64 - 1)
  lastSequence := none
  stats := .zero

variable (l : ZmqBlockListener)

def recordMessage : ZmqBlockListener :=
  { l with stats := { l.stats with messagesReceived := l.stats.messagesReceived + 1 } }

def recordReconnection : ZmqBlockListener :=
  { l with stats := { l.stats with reconnections := l.stats.reconnections + 1 } }

def recordRecvError : ZmqBlockListener :=
  { l with stats := { l.stats with recvErrors := l.stats.recvErrors + 1 } }

def recordParseError : ZmqBlockListener :=
  { l with stats := { l.stats with parseErrors := l.stats.parseErrors + 1 } }

def recordSequenceGap : ZmqBlockListener :=
  { l with stats := { l.stats with sequenceGaps := l.stats.sequenceGaps + 1 } }

/-- Sequence gap detection. -/
def trackSequence : Option UInt32 → ZmqBlockListener
  | none => l
  | some seq =>
    match l.lastSequence with
    | some last =>
      if seq ≠ last + 1 then { l.recordSequenceGap with lastSequence := some seq }
      else { l with lastSequence := some seq }
    | none => { l with lastSequence := some seq }

/-- What `recv_block_hash` makes of the frames of a message. -/
def accept (frames : List (List UInt8)) : Except AnyhowError String × ZmqBlockListener :=
  match parseHashblockMessage frames with
  | .error e => (.error e, l.recordParseError)
  | .ok (hashHex, sequence) => (.ok hashHex, l.recordMessage.trackSequence sequence)

/-- A method never ends without its answer. -/
abbrev Listening : Type → Type := Prog zmqCalls Empty

/-- The result of a method, and the listener it leaves. -/
abbrev Answer (α : Type) : Type := Except AnyhowError α × ZmqBlockListener

def perform (op : ZmqOp) : Listening (ZmqReply op) := Prog.perform (I := zmqCalls) op

def connect : Listening (Answer Unit) := do
  match ← perform (.connect l.endpoint) with
  | .error cause =>
    pure (.error ((AnyhowError.msg cause).context s!"Failed to connect ZMQ to {l.endpoint}"), l)
  | .ok () =>
    match ← perform (.subscribe "hashblock") with
    | .error cause =>
      pure (.error ((AnyhowError.msg cause).context "Failed to subscribe to hashblock topic"), l)
    | .ok () => pure (.ok (), { l with socket := true })

/-- The pause before an attempt that is not the first. -/
def delay (attempt : ℕ) : UInt64 := l.reconnectBaseDelayMs * .ofNat (2 ^ (attempt - 1))

def pauseBefore (attempt : ℕ) : Listening Unit :=
  if attempt > 0 then perform (.sleep (l.delay attempt)) else pure ()

/-- The attempts from one on, `left` of them. -/
def reconnectFrom : ℕ → ℕ → ZmqBlockListener → Listening (Answer Unit)
  | 0, _, l => pure (.error (.msg <|
      s!"ZMQ reconnection failed after {l.maxReconnectAttempts} attempts to {l.endpoint}"), l)
  | left + 1, attempt, l => do
    l.pauseBefore attempt
    match ← l.connect with
    | (.ok (), l) => pure (.ok (), l.recordReconnection)
    | (.error _, l) => reconnectFrom left (attempt + 1) l

/-- Reconnect with exponential backoff. -/
def reconnectWithBackoff : Listening (Answer Unit) := reconnectFrom l.maxReconnectAttempts 0 l

/-- The part of `recv_block_hash` after it has made sure of a socket. -/
def receive : Listening (Answer String) := do
  if l.socket then
    match ← perform (.recv l.recvTimeout) with
    | .message frames => pure (l.accept frames)
    | .failed cause =>
      pure (.error (.msg s!"ZMQ recv failed: {cause}"), { l.recordRecvError with socket := false })
    | .timedOut =>
      pure (.error (.msg s!"ZMQ recv timed out after {l.recvTimeout / 60} minutes"),
        { l.recordRecvError with socket := false })
  else pure (.error (.msg "ZMQ socket not connected after reconnect attempt"), l)

/-- The next block hash. -/
def recvBlockHash : Listening (Answer String) := do
  if l.socket then l.receive
  else
    match ← l.reconnectWithBackoff with
    | (.error e, l) => pure (.error e, l)
    | (.ok (), l) => l.receive

/-- Calls of `recv_block_hash`, one after the other. -/
def listen : ℕ → ZmqBlockListener →
    Listening (List (Except AnyhowError String) × ZmqBlockListener)
  | 0, l => pure ([], l)
  | n + 1, l => do
    let (result, l) ← l.recvBlockHash
    let (results, l) ← listen n l
    pure (result :: results, l)

end ZmqBlockListener

end ChainGraph
