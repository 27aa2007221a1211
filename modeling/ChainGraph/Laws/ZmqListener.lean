import ChainGraph.Foundation.Outcomes
import ChainGraph.Foundation.Words
import ChainGraph.Laws.Snapshot
import ChainGraph.Parser.ZmqListener

/-!
# What a listener hears

A node numbers its notices one after the other. Some are lost on the way, and a message that comes
may be none of them; connections fail, and waits end with nothing. Whatever happens, a listener
returns the hashes of the notices that come, in order, and its count of gaps is the number of places
where notices are missing.
-/

namespace ChainGraph

open Foundation Prog

open UtxoCache (textBytes fromUTF8_textBytes)

/-! ## Messages -/

/-- A block hash as it is printed, from its bytes on the wire. -/
def displayHash (hash : List UInt8) : String := String.ofList (Hex.encode hash.reverse)

/-- The frames the node sends. -/
def makeHashblockMessage (hash : List UInt8) (seq : UInt32) : List (List UInt8) :=
  [textBytes "hashblock", hash, leBytes 4 seq.toNat]

theorem topicOf_eq_hashblock {frame : List UInt8} :
    topicOf frame = "hashblock" ↔ frame = textBytes "hashblock" := by
  constructor
  · intro same
    unfold topicOf String.fromUTF8? at same
    split at same
    · rw [Option.getD_some] at same
      rw [← same]
      rfl
    · exact absurd same (by decide)
  · rintro rfl
    rw [topicOf, fromUTF8_textBytes, Option.getD_some]

/-- The messages that are accepted. -/
theorem parseHashblockMessage_eq_ok {frames : List (List UInt8)} {text : String}
    {sequence : Option UInt32} : parseHashblockMessage frames = .ok (text, sequence) ↔
      ∃ hash rest, frames = textBytes "hashblock" :: hash :: rest ∧ hash.length = 32 ∧
        text = displayHash hash ∧ sequence = sequenceOf rest := by
  constructor
  · intro parsed
    unfold parseHashblockMessage at parsed
    split at parsed
    · rename_i topic hash rest
      by_cases named : topicOf topic = "hashblock"
      · by_cases size : hash.length = 32
        · rw [if_neg (not_not.mpr named), if_neg (not_not.mpr size)] at parsed
          cases parsed
          exact ⟨hash, rest, by rw [topicOf_eq_hashblock.mp named], size, rfl, rfl⟩
        · rw [if_neg (not_not.mpr named), if_pos size] at parsed
          cases parsed
      · rw [if_pos named] at parsed
        cases parsed
    · cases parsed
  · rintro ⟨hash, rest, rfl, size, rfl, rfl⟩
    unfold parseHashblockMessage
    dsimp only
    rw [if_neg (not_not.mpr (topicOf_eq_hashblock.mpr rfl)), if_neg (not_not.mpr size)]
    rfl

/-- A message is read as it was made. -/
theorem parse_makeHashblockMessage {hash : List UInt8} (size : hash.length = 32) (seq : UInt32) :
    parseHashblockMessage (makeHashblockMessage hash seq) = .ok (displayHash hash, some seq) := by
  refine parseHashblockMessage_eq_ok.mpr ⟨hash, [leBytes 4 seq.toNat], rfl, size, rfl, ?_⟩
  have small : seq.toNat < 256 ^ 4 := seq.toNat_lt
  rw [sequenceOf, if_pos (length_leBytes 4 _), ofLe_leBytes_of_lt small, UInt32.ofNat_toNat]

/-- Different hashes are printed differently. -/
theorem displayHash_injective : Function.Injective displayHash := by
  intro hash hash' same
  have texts := congrArg Hex.decode (String.ofList_injective same)
  rw [Hex.decode_encode, Hex.decode_encode] at texts
  exact List.reverse_injective (Option.some.inj texts)

/-! ## Lost notices -/

/-- The places where notices are missing between those that came. -/
def losses : List ℕ → ℕ
  | i :: j :: rest => (if j = i + 1 then 0 else 1) + losses (j :: rest)
  | _ => 0

theorem losses_concat {heard : List ℕ} {last : ℕ} (ends : heard.getLast? = some last) (i : ℕ) :
    losses (heard ++ [i]) = losses heard + if i = last + 1 then 0 else 1 := by
  induction heard with
  | nil => cases ends
  | cons a heard ih =>
    cases heard with
    | nil =>
      obtain rfl : a = last := Option.some.inj ends
      simp [losses]
    | cons b heard =>
      have later := ih (by rw [← ends, List.getLast?_cons_cons])
      simp only [List.cons_append, losses] at later ⊢
      omega

theorem losses_le (heard : List ℕ) : losses heard ≤ heard.length := by
  induction heard with
  | nil => exact Nat.le_refl 0
  | cons a heard ih =>
    cases heard with
    | nil => exact Nat.zero_le 1
    | cons b heard =>
      simp only [losses, List.length_cons] at ih ⊢
      split <;> omega

/-- Nothing is missing iff the notices that came are all from the first on. -/
theorem losses_eq_zero {first : ℕ} {heard : List ℕ} :
    losses (first :: heard) = 0 ↔ first :: heard = List.range' first (heard.length + 1) := by
  induction heard generalizing first with
  | nil => simp [losses]
  | cons j heard ih =>
    rw [List.range'_succ, List.cons.injEq, List.length_cons, losses]
    by_cases next : j = first + 1
    · subst next
      simp [ih]
    · simp only [if_neg next, true_and]
      refine ⟨fun none => by omega, fun same => ?_⟩
      rw [List.range'_succ] at same
      exact absurd (List.cons.inj same).1 next

/-! ## The wire -/

/-- What may happen on the wire of a node with these hashes. The state is the numbers of the notices
that came. A notice comes after those that came before it, and fewer than `2 ^ 32` are lost at a
time; a message that is none cannot be parsed. -/
def wire (hash : ℕ → List UInt8) : Outcomes zmqCalls (List ℕ) where
  allow _ _ := True
  serves
    | .recv _, heard, .message frames, heard' =>
      (∃ i, (∀ last ∈ heard.getLast?, last < i ∧ i ≤ last + 2 ^ 32) ∧
        frames = makeHashblockMessage (hash i) (.ofNat i) ∧ heard' = heard ++ [i]) ∨
      ((∃ e, parseHashblockMessage frames = .error e) ∧ heard' = heard)
    | _, heard, _, heard' => heard' = heard

namespace ZmqBlockListener

/-- What a listener has answered and counted, when these notices came. -/
structure Heard (hash : ℕ → List UInt8) (l : ZmqBlockListener)
    (results : List (Except AnyhowError String)) (heard : List ℕ) : Prop where
  hashes : results.filterMap Except.toOption = heard.map fun i => displayHash (hash i)
  messages : l.stats.messagesReceived.toNat = heard.length
  last : l.lastSequence = heard.getLast?.map UInt32.ofNat
  gaps : l.stats.sequenceGaps.toNat = losses heard
  sockets : l.stats.reconnections.toNat + (if l.socket then 0 else 1) = l.stats.recvErrors.toNat
  counted : l.stats.messagesReceived.toNat + l.stats.recvErrors.toNat +
    l.stats.parseErrors.toNat ≤ results.length

variable {hash : ℕ → List UInt8} {l : ZmqBlockListener}
  {results : List (Except AnyhowError String)} {heard : List ℕ}

/-- Connecting hears nothing. It leaves the listener with a socket, or as it was. -/
theorem holds_connect (l : ZmqBlockListener) : l.connect.Holds (wire hash) (fun r heard' =>
    heard' = heard ∧ ∃ answer, r = .ok answer ∧
      (answer = (.ok (), { l with socket := true }) ∨ ∃ e, answer = (.error e, l))) heard := by
  refine ⟨trivial, fun connected heard' served => ?_⟩
  obtain rfl : heard' = heard := served
  cases connected with
  | error cause => exact ⟨rfl, _, rfl, Or.inr ⟨_, rfl⟩⟩
  | ok _ =>
    refine ⟨trivial, fun subscribed heard'' served => ?_⟩
    obtain rfl : heard'' = heard' := served
    cases subscribed with
    | error cause => exact ⟨rfl, _, rfl, Or.inr ⟨_, rfl⟩⟩
    | ok _ => exact ⟨rfl, _, rfl, Or.inl rfl⟩

theorem holds_reconnectFrom (left attempt : ℕ) (l : ZmqBlockListener) :
    (reconnectFrom left attempt l).Holds (wire hash) (fun r heard' =>
      heard' = heard ∧ ∃ answer, r = .ok answer ∧
        (answer = (.ok (), recordReconnection { l with socket := true }) ∨
          ∃ e, answer = (.error e, l))) heard := by
  induction left generalizing attempt with
  | zero => exact ⟨rfl, _, rfl, Or.inr ⟨_, rfl⟩⟩
  | succ left ih =>
    have paused : (l.pauseBefore attempt).Holds (wire hash) (fun _ heard' => heard' = heard)
        heard := by
      unfold pauseBefore
      split
      · exact ⟨trivial, fun _ heard' served => served⟩
      · rfl
    refine paused.bind (fun _ heard' same => ?_) fun e => e.elim
    obtain rfl : heard' = heard := same
    refine Holds.bind (holds_connect l) (fun answer heard'' done => ?_) fun e => e.elim
    obtain ⟨rfl, _, same, rfl | ⟨e, rfl⟩⟩ := done
    · cases same
      exact ⟨rfl, _, rfl, Or.inl rfl⟩
    · cases same
      exact ih (attempt + 1)

/-- Numbers that differ by at most a word follow each other iff their words do. -/
theorem ofNat_eq_add_one {last i : ℕ} (after : last < i) (near : i ≤ last + 2 ^ 32) :
    UInt32.ofNat i = UInt32.ofNat last + 1 ↔ i = last + 1 := by
  have word : UInt32.ofNat last + 1 = UInt32.ofNat (last + 1) := (UInt32.ofNat_add last 1).symm
  rw [word, ← UInt32.toNat_inj, UInt32.toNat_ofNat', UInt32.toNat_ofNat']
  omega

/-- A notice that came, with the next sequence number or a gap. -/
theorem Heard.notice (h : Heard hash l results heard) (few : results.length + 1 < 2 ^ 64) {i : ℕ}
    (after : ∀ last ∈ heard.getLast?, last < i ∧ i ≤ last + 2 ^ 32) :
    Heard hash (l.recordMessage.trackSequence (some (.ofNat i)))
      (results ++ [.ok (displayHash (hash i))]) (heard ++ [i]) := by
  have hashes : (results ++ [Except.ok (displayHash (hash i))]).filterMap Except.toOption =
      (heard ++ [i]).map fun i => displayHash (hash i) := by
    rw [List.filterMap_append, h.hashes, List.map_append]
    rfl
  have counted := h.counted
  have one : (l.stats.messagesReceived + 1).toNat = l.stats.messagesReceived.toNat + 1 :=
    toNat_succ (by omega)
  cases ends : heard.getLast? with
  | none =>
    obtain rfl := List.getLast?_eq_none_iff.mp ends
    have fresh : l.lastSequence = none := h.last
    have tracked : l.recordMessage.trackSequence (some (.ofNat i)) =
        { l.recordMessage with lastSequence := some (.ofNat i) } := by
      unfold trackSequence
      rw [show l.recordMessage.lastSequence = none from fresh]
    rw [tracked]
    exact {
      hashes
      messages := one.trans (congrArg (· + 1) h.messages)
      last := rfl
      gaps := h.gaps
      sockets := h.sockets
      counted := by
        simp only [recordMessage, List.length_append, List.length_singleton, one]
        omega }
  | some last =>
    have previous : l.lastSequence = some (.ofNat last) := by rw [h.last, ends]; rfl
    obtain ⟨above, near⟩ := after last ends
    have tracked : l.recordMessage.trackSequence (some (.ofNat i)) =
        { l.recordMessage with
          lastSequence := some (.ofNat i)
          stats := { l.recordMessage.stats with
            sequenceGaps := l.stats.sequenceGaps + if i = last + 1 then 0 else 1 } } := by
      unfold trackSequence
      rw [show l.recordMessage.lastSequence = some (.ofNat last) from previous]
      dsimp only
      have follows := ofNat_eq_add_one above near
      by_cases next : i = last + 1
      · rw [if_neg (not_not.mpr (follows.mpr next)), if_pos next, UInt64.add_zero]
        rfl
      · rw [if_pos fun same => next (follows.mp same), if_neg next]
        rfl
    rw [tracked]
    exact {
      hashes
      messages := by
        rw [List.length_append, ← h.messages]
        exact one
      last := by rw [List.getLast?_concat]; rfl
      gaps := by
        have fewer := losses_le heard
        rw [losses_concat ends, ← h.gaps]
        dsimp only
        split
        · rw [UInt64.add_zero, Nat.add_zero]
        · rw [← h.gaps, ← h.messages] at fewer
          exact toNat_succ (by omega)
      sockets := h.sockets
      counted := by
        simp only [recordMessage, List.length_append, List.length_singleton, one]
        omega }

/-- A message that came leaves the listener with what it heard. -/
theorem Heard.accept (h : Heard hash l results heard) (few : results.length + 1 < 2 ^ 64)
    (sized : ∀ i, (hash i).length = 32) {frames : List (List UInt8)} {heard' : List ℕ}
    {timeout : UInt64}
    (served : (wire hash).serves (.recv timeout) heard (.message frames) heard') :
    Heard hash (l.accept frames).2 (results ++ [(l.accept frames).1]) heard' := by
  rcases served with ⟨i, after, rfl, rfl⟩ | ⟨⟨e, failed⟩, rfl⟩
  · rw [ZmqBlockListener.accept, parse_makeHashblockMessage (sized i)]
    exact h.notice few after
  · have counted := h.counted
    have one : (l.stats.parseErrors + 1).toNat = l.stats.parseErrors.toNat + 1 :=
      toNat_succ (by omega)
    rw [ZmqBlockListener.accept, failed]
    exact {
      hashes := by
        rw [List.filterMap_append, h.hashes]
        exact List.append_nil _
      messages := h.messages
      last := h.last
      gaps := h.gaps
      sockets := h.sockets
      counted := by
        simp only [recordParseError, List.length_append, List.length_singleton, one]
        omega }

/-- A wait that ends with nothing costs the socket. -/
theorem Heard.dropped (h : Heard hash l results heard) (few : results.length + 1 < 2 ^ 64)
    (there : l.socket = true) (e : AnyhowError) :
    Heard hash { l.recordRecvError with socket := false } (results ++ [.error e]) heard := by
  have counted := h.counted
  have sockets := h.sockets
  have one : (l.stats.recvErrors + 1).toNat = l.stats.recvErrors.toNat + 1 :=
    toNat_succ (by omega)
  rw [there] at sockets
  exact {
    hashes := by
      rw [List.filterMap_append, h.hashes]
      exact List.append_nil _
    messages := h.messages
    last := h.last
    gaps := h.gaps
    sockets := by
      simp only [recordRecvError, Bool.false_eq_true, if_false, if_true, one] at sockets ⊢
      omega
    counted := by
      simp only [recordRecvError, List.length_append, List.length_singleton, one]
      omega }

/-- What one call answers and leaves. -/
def Answered (hash : ℕ → List UInt8) (results : List (Except AnyhowError String)) :
    Except Empty (Answer String) → List ℕ → Prop
  | .ok (result, l'), heard' => Heard hash l' (results ++ [result]) heard'
  | .error e, _ => e.elim

theorem Heard.receive (h : Heard hash l results heard) (few : results.length + 1 < 2 ^ 64)
    (sized : ∀ i, (hash i).length = 32) (there : l.socket = true) :
    l.receive.Holds (wire hash) (Answered hash results) heard := by
  unfold ZmqBlockListener.receive
  rw [if_pos there]
  refine ⟨trivial, fun received heard' served => ?_⟩
  cases received with
  | message frames => exact h.accept few sized served
  | failed cause =>
    obtain rfl : heard' = heard := served
    exact h.dropped few there _
  | timedOut =>
    obtain rfl : heard' = heard := served
    exact h.dropped few there _

theorem Heard.reconnected (h : Heard hash l results heard) (gone : l.socket = false) :
    Heard hash (recordReconnection { l with socket := true }) results heard where
  hashes := h.hashes
  messages := h.messages
  last := h.last
  gaps := h.gaps
  sockets := by
    have sockets := h.sockets
    rw [gone] at sockets
    have word := l.stats.recvErrors.toNat_lt
    have one : (l.stats.reconnections + 1).toNat = l.stats.reconnections.toNat + 1 := by
      refine toNat_succ ?_
      simp only [Bool.false_eq_true, if_false] at sockets
      omega
    exact one.trans sockets
  counted := h.counted

theorem Heard.refused (h : Heard hash l results heard) (e : AnyhowError) :
    Heard hash l (results ++ [.error e]) heard where
  hashes := by
    rw [List.filterMap_append, h.hashes]
    exact List.append_nil _
  messages := h.messages
  last := h.last
  gaps := h.gaps
  sockets := h.sockets
  counted := by
    have counted := h.counted
    simp only [List.length_append, List.length_singleton]
    omega

/-- One call keeps what a listener has answered and counted. -/
theorem Heard.recvBlockHash (h : Heard hash l results heard) (few : results.length + 1 < 2 ^ 64)
    (sized : ∀ i, (hash i).length = 32) :
    l.recvBlockHash.Holds (wire hash) (Answered hash results) heard := by
  unfold ZmqBlockListener.recvBlockHash
  by_cases there : l.socket = true
  · rw [if_pos there]
    exact h.receive few sized there
  · rw [if_neg there]
    refine (holds_reconnectFrom l.maxReconnectAttempts 0 l).bind (fun answer heard' done => ?_)
      fun e => e.elim
    obtain ⟨rfl, _, same, rfl | ⟨e, rfl⟩⟩ := done
    · cases same
      exact (h.reconnected (Bool.eq_false_of_not_eq_true there)).receive few sized rfl
    · cases same
      exact h.refused e

/-- A listener that has a socket and has not heard anything. -/
structure Fresh (l : ZmqBlockListener) : Prop where
  socket : l.socket = true
  lastSequence : l.lastSequence = none
  stats : l.stats = .zero

theorem Fresh.hears (h : Fresh l) (hash : ℕ → List UInt8) : Heard hash l [] [] where
  hashes := rfl
  messages := by rw [h.stats]; rfl
  last := h.lastSequence
  gaps := by rw [h.stats]; rfl
  sockets := by rw [h.stats, h.socket]; rfl
  counted := by rw [h.stats]; exact le_rfl

theorem Heard.listen (sized : ∀ i, (hash i).length = 32) (n : ℕ) (h : Heard hash l results heard)
    (few : results.length + n < 2 ^ 64) :
    (ZmqBlockListener.listen n l).Holds (wire hash) (fun r heard' => ∃ later l',
      r = .ok (later, l') ∧ later.length = n ∧ Heard hash l' (results ++ later) heard') heard := by
  induction n generalizing l results heard with
  | zero => exact ⟨[], l, rfl, rfl, (List.append_nil results).symm ▸ h⟩
  | succ n ih =>
    refine (h.recvBlockHash (by omega) sized).bind (fun answer heard' done => ?_) fun e => e.elim
    have later : (results ++ [answer.1]).length + n < 2 ^ 64 := by
      rw [List.length_append, List.length_singleton]
      omega
    refine (ih done later).bind (fun answers heard'' done => ?_) fun e => e.elim
    obtain ⟨later, l', same, length, next⟩ := done
    cases same
    rw [List.append_assoc] at next
    exact ⟨answer.1 :: later, l', rfl, congrArg (· + 1) length, next⟩

/-- The count of gaps is zero iff nothing is missing between the notices that came. -/
theorem Heard.complete (h : Heard hash l results heard) :
    l.stats.sequenceGaps = 0 ↔ heard = List.range' (heard.headD 0) heard.length := by
  rw [← UInt64.toNat_inj, h.gaps]
  cases heard with
  | nil => simp [losses]
  | cons first heard => exact losses_eq_zero

/-- **A listener reports what it hears.** However a node and the wire behave, in fewer calls than a
counter can count the listener returns the hashes of the notices that came, in order; it has counted
a gap for each place where notices are missing, and none iff nothing is missing. -/
theorem listen_reports (sized : ∀ i, (hash i).length = 32) (fresh : l.Fresh) (n : ℕ)
    (few : n < 2 ^ 64) :
    (ZmqBlockListener.listen n l).Holds (wire hash) (fun r heard => ∃ results l',
      r = .ok (results, l') ∧ results.length = n ∧ Heard hash l' results heard ∧
      (l'.stats.sequenceGaps = 0 ↔ heard = List.range' (heard.headD 0) heard.length)) [] := by
  refine ((fresh.hears hash).listen sized n (by simpa using few)).mono fun r heard done => ?_
  obtain ⟨results, l', same, length, reports⟩ := done
  exact ⟨results, l', same, length, reports, reports.complete⟩

theorem listen_reports_sample :
    (ZmqBlockListener.listen 4 { new "tcp://127.0.0.1:28332" with socket := true }).Holds
      (wire (leBytes 32)) (fun r heard => ∃ results l',
        r = .ok (results, l') ∧ results.length = 4 ∧ Heard (leBytes 32) l' results heard ∧
        (l'.stats.sequenceGaps = 0 ↔ heard = List.range' (heard.headD 0) heard.length)) [] :=
  listen_reports (fun i => length_leBytes 32 i) ⟨rfl, rfl, rfl⟩ 4 (by decide)

/-! ## Backoff -/

/-- A wire that refuses so many connections, and the pauses that were made. -/
def refusing : Handler zmqCalls (ℕ × List UInt64)
  | .connect _, (0, pauses) => (.ok (), (0, pauses))
  | .connect _, (refusals + 1, pauses) => (.error "connection refused", (refusals, pauses))
  | .subscribe _, s => (.ok (), s)
  | .recv _, s => (.timedOut, s)
  | .sleep ms, (refusals, pauses) => ((), (refusals, pauses ++ [ms]))

/-- The pauses of so many attempts from one on. -/
def pausesFrom (l : ZmqBlockListener) (attempt n : ℕ) : List UInt64 :=
  ((List.range' attempt n).filter (0 < ·)).map l.delay

theorem pausesFrom_succ (l : ZmqBlockListener) (attempt n : ℕ) : l.pausesFrom attempt (n + 1) =
    (if attempt > 0 then [l.delay attempt] else []) ++ l.pausesFrom (attempt + 1) n := by
  unfold pausesFrom
  rw [List.range'_succ, List.filter_cons]
  by_cases later : attempt > 0
  · simp [later]
  · simp [later]

/-- The attempts go on until a connection is not refused. -/
theorem run_reconnectFrom (left : ℕ) : ∀ (attempt refusals : ℕ) (pauses : List UInt64),
    (reconnectFrom left attempt l).run refusing (refusals, pauses) =
      if refusals < left then
        (.ok (.ok (), recordReconnection { l with socket := true }),
          (0, pauses ++ l.pausesFrom attempt (refusals + 1)))
      else
        (.ok (.error (.msg <|
          s!"ZMQ reconnection failed after {l.maxReconnectAttempts} attempts to {l.endpoint}"), l),
          (refusals - left, pauses ++ l.pausesFrom attempt left)) := by
  induction left with
  | zero =>
    intro attempt refusals pauses
    rw [if_neg (Nat.not_lt_zero _)]
    simp [reconnectFrom, pausesFrom]
  | succ left ih =>
    intro attempt refusals pauses
    have slept : (l.pauseBefore attempt).run refusing (refusals, pauses) =
        (.ok (), (refusals, pauses ++ if attempt > 0 then [l.delay attempt] else [])) := by
      unfold pauseBefore
      by_cases later : attempt > 0
      · rw [if_pos later, if_pos later]
        rfl
      · rw [if_neg later, if_neg later, List.append_nil]
        rfl
    rw [reconnectFrom, run_bind_ok slept]
    cases refusals with
    | zero =>
      have connected : ∀ s, l.connect.run refusing (0, s) =
          (.ok (.ok (), { l with socket := true }), (0, s)) := fun _ => rfl
      rw [run_bind_ok (connected _), if_pos (Nat.succ_pos left), pausesFrom_succ]
      simp only [pausesFrom, List.range'_zero, List.filter_nil, List.map_nil, List.append_nil]
      rfl
    | succ refusals =>
      have refused : ∀ s, l.connect.run refusing (refusals + 1, s) =
          (.ok (.error ((AnyhowError.msg "connection refused").context
            s!"Failed to connect ZMQ to {l.endpoint}"), l), (refusals, s)) := fun _ => rfl
      rw [run_bind_ok (refused _)]
      dsimp only
      rw [ih, l.pausesFrom_succ attempt (refusals + 1), l.pausesFrom_succ attempt left,
        ← List.append_assoc, ← List.append_assoc]
      simp only [Nat.add_lt_add_iff_right, Nat.add_sub_add_right]

/-- Reconnecting succeeds iff fewer connections are refused than attempts are made. Before each
attempt after the first there is a pause. -/
theorem run_reconnectWithBackoff (refusals : ℕ) :
    l.reconnectWithBackoff.run refusing (refusals, []) =
      if refusals < l.maxReconnectAttempts then
        (.ok (.ok (), recordReconnection { l with socket := true }),
          (0, (List.range refusals).map fun i => l.reconnectBaseDelayMs * .ofNat (2 ^ i)))
      else
        (.ok (.error (.msg <|
          s!"ZMQ reconnection failed after {l.maxReconnectAttempts} attempts to {l.endpoint}"), l),
          (refusals - l.maxReconnectAttempts, (List.range (l.maxReconnectAttempts - 1)).map
            fun i => l.reconnectBaseDelayMs * .ofNat (2 ^ i))) := by
  have fromFirst : ∀ n, l.pausesFrom 0 n =
      (List.range (n - 1)).map fun i => l.reconnectBaseDelayMs * .ofNat (2 ^ i) := by
    intro n
    cases n with
    | zero => rfl
    | succ n =>
      have later : (List.range' 1 n).filter (0 < ·) = List.range' 1 n :=
        List.filter_eq_self.mpr fun i mem => decide_eq_true (List.mem_range'_1.mp mem).1
      rw [pausesFrom_succ, if_neg (lt_irrefl 0), List.nil_append, pausesFrom, later,
        List.range'_eq_map_range, List.map_map]
      refine List.map_congr_left fun i _ => ?_
      simp [delay]
  unfold reconnectWithBackoff
  rw [run_reconnectFrom, fromFirst, fromFirst]
  rfl

end ZmqBlockListener

end ChainGraph
