import ChainGraph.Laws.Streamed

/-!
# Live mode over a growing chain

A node whose chain only grows, and whose answers may fail at any moment. Live mode stores the blocks
of the chain in order: whenever it is cut off, or ends, the database mirrors the first blocks of the
chain, no fewer than before, and the next height to fetch is the number of stored blocks. A
notification that is handled without an error leaves nothing below the tip of its moment unstored.
Before that, each iteration of the catch-up loop that nothing cancels stores a whole batch, or
everything up to a height that the node has.
-/

namespace ChainGraph

open Foundation

namespace Course

open Process Live

variable {o : IngestionOrchestrator} {d : Course o} {crc32 : List UInt8 → UInt32}
  {config : Config} {out : Outside} {s s' : State} {count first : ℕ} {size : ℕ → ℕ} {v : Vars}

/-- A node with so many blocks of the chain at every moment. Any answer may be an error. A wait
after a cancellation hears of it. -/
structure Node (d : Course o) (out : Outside) (size : ℕ → ℕ) : Prop where
  grows : Monotone size
  within : ∀ c, size c ≤ d.chain.length
  tip : ∀ c t, out.tip c = .ok t → t + 1 = size c
  block : ∀ c height found, out.block c height = .ok found →
    found = (d.chain.take (size c))[height]?.map (·.block)
  named : ∀ b ∈ d.chain, b.fileName = "rpc"
  told : ∀ c c', c ≤ c' → out.cancelled c = true →
    out.cancelled c' = true ∧ out.event c' = .shutdown

/-- A run keeps the blocks, and has a postcondition if it succeeds. -/
abbrev Steps {α : Type} (d : Course o) (crc32 : List UInt8 → UInt32) (out : Outside) (first : ℕ)
    (P : α → State → Prop) (p : Proc α) (s : State) : Prop :=
  Prog.Keeps (Process.handle o crc32 out) (fun _ _ => True) (d.Moment crc32 first) P p s

/-! ## Calls -/

/-- Time does not run backwards. -/
theorem keeps_clock {α : Type} {t : ℕ} (p : Proc α) (before : t ≤ s.clock) :
    Prog.Keeps (Process.handle o crc32 out) (fun _ _ => True) (fun s' => t ≤ s'.clock)
      (fun _ _ => True) p s := by
  induction p generalizing s with
  | ret a => exact ⟨before, trivial⟩
  | fail e => exact before
  | vis c k ih => exact ⟨before, fun _ => ih _ (Nat.le_succ_of_le before)⟩

/-- A call that only asks. -/
theorem Works.asks {c : Op} (works : d.Works crc32 count s) (low : first ≤ count)
    (still : (act o crc32 out c s).2 = s) :
    Steps d crc32 out first (fun r s' => r = (act o crc32 out c s).1 ∧ d.Works crc32 count s' ∧
      s'.clock = s.clock + 1) (perform c) s := by
  have works' : d.Works crc32 count (Process.handle o crc32 out c s).2 := by
    refine works.congr ?_ ?_
    · show (act o crc32 out c s).2.world = s.world
      rw [still]
    · show (act o crc32 out c s).2.file = s.file
      rw [still]
  exact Prog.Keeps.perform (works.moment low) fun _ => ⟨works'.moment low, rfl, works', rfl⟩

/-- A call whose effect is known. -/
theorem steps_call {c : Op} {r : Reply c} (acts : Process.handle o crc32 out c s = (r, s'))
    (works : d.Works crc32 count s) (works' : d.Works crc32 count s') (low : first ≤ count) :
    Steps d crc32 out first (fun a t => a = r ∧ t = s') (perform c) s := by
  refine Prog.Keeps.perform (works.moment low) fun _ => ?_
  rw [acts]
  exact ⟨works'.moment low, rfl, rfl⟩

/-- The next batch, and the time it takes. -/
theorem steps_ingestBlocksBatch {blocks : List LocatedBlock} (works : d.Works crc32 count s)
    (next : d.chain.take (count + blocks.length) = d.chain.take count ++ blocks)
    (within : count + blocks.length ≤ d.chain.length) (low : first ≤ count) :
    Steps d crc32 out first (fun r s' => r = .ok () ∧
      d.Works crc32 (count + blocks.length) s' ∧ s.clock ≤ s'.clock)
      (Process.ingestBlocksBatch o config blocks) s := by
  have passes := passes_ingestBlocksBatch config out works next within low
  have timed := passes.keeps.and (keeps_clock _ (Nat.le_refl s.clock))
  refine (timed.mono fun r s' here done => ?_).weaken fun _ both => both.1
  obtain ⟨⟨answer, works'⟩, -⟩ := done
  exact ⟨Except.ok.inj answer, works', here.2⟩

/-! ## Fetching -/

/-- A block that the node has. -/
theorem Node.found (node : d.Node out size) {c height : ℕ} {found : Option Block}
    (answered : out.block c height = .ok found) (inside : height < size c) :
    ∃ b, d.chain[height]? = some b ∧ found = some b.block ∧ b = ⟨height, b.block, "rpc"⟩ := by
  have within := node.within c
  obtain ⟨b, here⟩ : ∃ b, d.chain[height]? = some b :=
    ⟨_, List.getElem?_eq_getElem (by omega)⟩
  have cut : (d.chain.take (size c))[height]? = some b := by
    rw [List.getElem?_take_of_lt inside, here]
  refine ⟨b, here, ?_, ?_⟩
  · rw [node.block c height found answered, cut]
    rfl
  · have name := node.named b (List.mem_of_getElem? here)
    have there := height_of_getElem? cut
    obtain ⟨h, block, fileName⟩ := b
    subst there name
    rfl

/-- The blocks of a batch, if none of its answers was an error. -/
theorem Node.collected (node : d.Node out size) {c start n : ℕ} {blocks : List LocatedBlock}
    (inside : start + n ≤ size c)
    (got : collectBatch ((List.range' start n).map fun height => (height, out.block c height)) =
      .ok blocks) :
    d.chain.take (start + n) = d.chain.take start ++ blocks ∧ blocks.length = n := by
  induction n generalizing start blocks with
  | zero =>
    cases got
    simp
  | succ n ih =>
    rw [List.range'_succ, List.map_cons] at got
    cases answered : out.block c start with
    | error e =>
      rw [answered] at got
      cases got
    | ok found =>
      obtain ⟨b, here, same, whole⟩ := node.found answered (by omega)
      rw [answered, same] at got
      unfold collectBatch at got
      cases rest : collectBatch
          ((List.range' (start + 1) n).map fun height => (height, out.block c height)) with
      | error e =>
        rw [rest] at got
        cases got
      | ok others =>
        rw [rest] at got
        cases got
        obtain ⟨more, length⟩ := ih (by omega) rest
        rw [← whole, show start + (n + 1) = start + 1 + n by omega, more, List.take_add_one, here]
        simp [length]

/-! ## The loops -/

/-- The loop over new heights the node has. -/
theorem steps_ingestNew (node : d.Node out size) (remaining : ℕ) {tracker : Option ℕ}
    (works : d.Works crc32 count s) (low : first ≤ count)
    (enough : remaining = 0 ∨ count + remaining ≤ size s.clock) :
    Steps d crc32 out first (fun r s' => r.1 = count + remaining ∧
      d.Works crc32 (count + remaining) s' ∧ s.clock ≤ s'.clock)
      (ingestNew o config remaining count tracker) s := by
  induction remaining generalizing count s tracker with
  | zero => exact .pure (works.moment low) ⟨rfl, works, Nat.le_refl _⟩
  | succ remaining ih =>
    unfold ingestNew
    refine (works.asks low (c := .getBlock count) rfl).bind fun r s₁ _ asked => ?_
    obtain ⟨answer, works₁, clock₁⟩ := asked
    refine (keeps_orFail (works₁.moment low)).bind fun found s₂ _ same => ?_
    obtain ⟨rfl, rfl⟩ := same
    obtain ⟨b, here, rfl, whole⟩ := node.found (answer.symm : out.block s.clock count = _)
      (by omega)
    dsimp only
    rw [← whole]
    have next : d.chain.take (count + [b].length) = d.chain.take count ++ [b] := by
      simp [List.take_add_one, here]
    have within := node.within s.clock
    refine (steps_ingestBlocksBatch works₁ next (by simp; omega) low).bind fun r s₃ _ done => ?_
    obtain ⟨rfl, works₃, clock₃⟩ := done
    have grown := node.grows (show s.clock ≤ s₃.clock by omega)
    have word := d.valid.word
    have wraps : asU32 (count + 1) = count + [b].length := asU32_of_lt (by omega)
    dsimp only
    rw [wraps]
    refine (ih works₃ (by simp; omega) (by simp; omega)).mono fun r s' _ ended => ?_
    obtain ⟨height, works', clock'⟩ := ended
    have same : count + [b].length + remaining = count + (remaining + 1) := by simp; omega
    rw [same] at height works'
    exact ⟨height, works', by omega⟩

theorem steps_getBlockBatch (works : d.Works crc32 count s) (low : first ≤ count) (start n : ℕ) :
    Steps d crc32 out first (fun r s' => r = collectBatch
        ((List.range' start n).map fun height => (height, out.block s.clock height)) ∧
      d.Works crc32 count s' ∧ s'.clock = s.clock + 1) (getBlockBatch start n) s := by
  unfold getBlockBatch
  refine (works.asks low (c := .getBlocks (List.range' start n)) rfl).bind fun r s₁ _ asked => ?_
  obtain ⟨rfl, works₁, clock₁⟩ := asked
  exact .pure (works₁.moment low) ⟨rfl, works₁, clock₁⟩

/-- The end of a run saves the cache. -/
theorem steps_finish (works : d.Works crc32 count s) (low : first ≤ count) :
    Steps d crc32 out first (fun v' s' => v'.phase = .done ∧ d.Works crc32 count s')
      (finish config v) s := by
  unfold finish
  cases v.tracker with
  | none => exact .pure (works.moment low) ⟨rfl, works⟩
  | some height =>
    dsimp only
    split
    · obtain ⟨r, s', acts, works'⟩ := works.saveToFile out .shutdown height
      refine (Prog.Keeps.perform (works.moment low) fun _ => ⟨?_, ?_⟩).bind
        fun _ s₁ _ (works₁ : d.Works crc32 count s₁) => .pure (works₁.moment low) ⟨rfl, works₁⟩
      · rw [acts]
        exact works'.moment low
      · rw [acts]
        exact works'
    · exact .pure (works.moment low) ⟨rfl, works⟩

/-- The next height is the number of stored blocks, unless the run has been cancelled. -/
def Next (out : Outside) (count : ℕ) (v : Vars) (s : State) : Prop :=
  v.currentHeight = count ∨ ∃ c ≤ s.clock, out.cancelled c = true

theorem Next.later {v' : Vars} (next : Next out count v s)
    (same : v'.currentHeight = v.currentHeight) (later : s.clock ≤ s'.clock) :
    Next out count v' s' := by
  rcases next with here | ⟨c, before, cancelled⟩
  · exact Or.inl (same.trans here)
  · exact Or.inr ⟨c, before.trans later, cancelled⟩

/-- A run that has not been cancelled is at the next height. -/
theorem Next.here (next : Next out count v s) (node : d.Node out size)
    (going : ¬out.cancelled s.clock = true) : v.currentHeight = count := by
  rcases next with here | ⟨c, before, cancelled⟩
  · exact here
  · exact absurd (node.told c s.clock before cancelled).1 going

/-- Where a run is: so many blocks are stored, no more than it was to store. -/
structure At (d : Course o) (crc32 : List UInt8 → UInt32) (config : Config) (out : Outside)
    (first count : ℕ) (v : Vars) (s : State) : Prop where
  works : d.Works crc32 count s
  low : first ≤ count
  high : count ≤ max first (config.maxHeight + 1)
  next : v.phase = .done ∨ Next out count v s

/-- Somewhere further on. -/
def Ahead (d : Course o) (crc32 : List UInt8 → UInt32) (config : Config) (out : Outside)
    (first count : ℕ) (v : Vars) (s : State) : Prop :=
  ∃ count', count ≤ count' ∧ d.At crc32 config out first count' v s

/-- After the catch-up loop. -/
theorem steps_leaveCatchUp (works : d.Works crc32 count s) (low : first ≤ count)
    (high : count ≤ max first (config.maxHeight + 1)) (next : Next out count v s) :
    Steps d crc32 out first (d.Ahead crc32 config out first count) (leaveCatchUp config v) s := by
  unfold leaveCatchUp
  split
  · exact .pure (works.moment low) ⟨count, Nat.le_refl _, works, low, high, Or.inl rfl⟩
  · refine (works.asks low (c := .connectZmq) rfl).bind fun r s₁ _ asked => ?_
    obtain ⟨-, works₁, clock₁⟩ := asked
    refine (keeps_orFail (works₁.moment low)).bind fun _ s₂ _ same => ?_
    obtain ⟨rfl, -⟩ := same
    exact .pure (works₁.moment low)
      ⟨count, Nat.le_refl _, works₁, low, high, Or.inr (next.later rfl (by omega))⟩

/-- A fetched batch is ingested. -/
theorem steps_ingestFetched {blocks : List LocatedBlock} {batchEnd : ℕ}
    (works : d.Works crc32 count s) (low : first ≤ count)
    (next : d.chain.take (count + blocks.length) = d.chain.take count ++ blocks)
    (within : count + blocks.length ≤ d.chain.length)
    (high : count + blocks.length ≤ max first (config.maxHeight + 1))
    (ends : batchEnd + 1 = count + blocks.length) :
    Steps d crc32 out first
      (fun v' s' => d.Ahead crc32 config out first (count + blocks.length) v' s' ∧
        ((∀ c, out.cancelled c = false) → v'.phase = v.phase))
      (ingestFetched o config v blocks batchEnd) s := by
  unfold ingestFetched
  refine (steps_ingestBlocksBatch works next within low).bind fun r s₁ _ done => ?_
  obtain ⟨rfl, works₁, -⟩ := done
  have low₁ : first ≤ count + blocks.length := by omega
  refine (works₁.asks low₁ (c := .isCancelled) rfl).bind fun r s₂ _ asked => ?_
  obtain ⟨answer, works₂, clock₂⟩ := asked
  split
  · rename_i cancelled
    have heard : Next out (count + blocks.length) { v with tracker := some batchEnd } s₂ :=
      Or.inr ⟨s₁.clock, by omega, answer.symm.trans cancelled⟩
    refine (steps_leaveCatchUp works₂ low₁ high heard).mono fun v' s' _ ahead => ⟨ahead, ?_⟩
    intro quiet
    rw [show r = out.cancelled s₁.clock from answer, quiet] at cancelled
    cases cancelled
  · have word := d.valid.word
    refine .pure (works₂.moment low₁)
      ⟨⟨count + blocks.length, Nat.le_refl _, works₂, low₁, high, Or.inr (Or.inl ?_)⟩,
        fun _ => rfl⟩
    show asU32 (batchEnd + 1) = _
    rw [ends, asU32_of_lt (by omega)]

/-- The tip of the node. -/
theorem Node.tipped (node : d.Node out size) {c tip : ℕ}
    (answered : (out.tip c).map asU32 = .ok tip) : out.tip c = .ok tip ∧ tip + 1 = size c := by
  cases found : out.tip c with
  | error e =>
    rw [found] at answered
    cases answered
  | ok t =>
    rw [found] at answered
    have same : asU32 t = tip := Except.ok.inj answered
    have size := node.tip c t found
    have within := node.within c
    have word := d.valid.word
    rw [asU32_of_lt (by omega)] at same
    subst same
    exact ⟨rfl, size⟩

/-- What an iteration of the catch-up loop adds, as long as nothing is cancelled: a whole batch, or
everything up to a height that the node has. -/
def Gains (config : Config) (out : Outside) (size : ℕ → ℕ) (count count' : ℕ) (still : Prop) :
    Prop :=
  (∀ c, out.cancelled c = false) → 0 < config.rpcBatchSize → ∀ height, (∀ c, height < size c) →
    min height config.maxHeight < count' ∨ still ∧ count + config.rpcBatchSize ≤ count'

/-- The catch-up loop is left with nothing more to gain. -/
theorem steps_leaveGaining (works : d.Works crc32 count s) (low : first ≤ count)
    (high : count ≤ max first (config.maxHeight + 1)) (next : Next out count v s)
    (gains : Gains config out size count count False) :
    Steps d crc32 out first (fun v' s' => ∃ count', count ≤ count' ∧
        d.At crc32 config out first count' v' s' ∧
        Gains config out size count count' (v'.phase = v.phase))
      (leaveCatchUp config v) s := by
  refine (steps_leaveCatchUp works low high next).mono fun v' s' _ ahead => ?_
  obtain ⟨count', above, there⟩ := ahead
  refine ⟨count', above, there, fun quiet positive height tall => Or.inl ?_⟩
  have reached := (gains quiet positive height tall).resolve_right fun both => both.1
  omega

/-- **One iteration of the catch-up loop.** -/
theorem steps_catchUp (node : d.Node out size) (works : d.Works crc32 count s)
    (low : first ≤ count) (high : count ≤ max first (config.maxHeight + 1))
    (next : Next out count v s) :
    Steps d crc32 out first (fun v' s' => ∃ count', count ≤ count' ∧
        d.At crc32 config out first count' v' s' ∧
        Gains config out size count count' (v'.phase = v.phase))
      (catchUp o config v) s := by
  unfold catchUp
  refine (works.asks low (c := .isCancelled) rfl).bind fun r s₁ _ asked => ?_
  obtain ⟨answer, works₁, clock₁⟩ := asked
  have answer : r = out.cancelled s.clock := answer
  split
  · rename_i cancelled
    refine steps_leaveGaining works₁ low high (next.later rfl (by omega)) fun quiet => ?_
    rw [answer, quiet] at cancelled
    cases cancelled
  · rename_i going
    have here : v.currentHeight = count := next.here node (answer ▸ going)
    refine (works₁.asks low (c := .getTipHeight) rfl).bind fun r s₂ _ asked => ?_
    obtain ⟨tipAnswer, works₂, clock₂⟩ := asked
    refine (keeps_orFail (works₂.moment low)).bind fun tip s₃ _ same => ?_
    obtain ⟨rfl, rfl⟩ := same
    obtain ⟨-, tipSize⟩ := node.tipped (tipAnswer.symm : (out.tip s₁.clock).map asU32 = _)
    have within := node.within s₁.clock
    have word := d.valid.word
    dsimp only
    rw [here]
    split
    · refine steps_leaveGaining works₂ low high (Or.inl here) fun _ _ height tall => Or.inl ?_
      have := tall s₁.clock
      omega
    · rename_i behind
      have small : min tip config.maxHeight - count + 1 < 2 ^ 32 := by omega
      rw [asU32_of_lt small]
      generalize fetched : min (min tip config.maxHeight - count + 1) config.rpcBatchSize = n
      have few : n ≤ min tip config.maxHeight - count + 1 := by omega
      refine (steps_getBlockBatch works₂ low count n).bind fun r s₄ _ asked => ?_
      obtain ⟨batchAnswer, works₄, clock₄⟩ := asked
      refine (keeps_orFail (works₄.moment low)).bind fun blocks s₅ _ same => ?_
      obtain ⟨rfl, rfl⟩ := same
      have grown := node.grows (show s₁.clock ≤ s₃.clock by omega)
      obtain ⟨nextBlocks, length⟩ := node.collected (by omega) batchAnswer.symm
      have within' := node.within s₃.clock
      rw [← length] at nextBlocks
      cases top : blocks.getLast? with
      | none =>
        refine steps_leaveGaining works₄ low high (Or.inl here) fun _ positive => ?_
        rw [List.getLast?_eq_none_iff.mp top, List.length_nil] at length
        omega
      | some last =>
        dsimp only
        have ends := IngestionOrchestrator.height_of_getLast? (valid_next nextBlocks) top
        rw [List.length_take, Nat.min_eq_left works₄.within] at ends
        refine (works₄.asks low (c := .isCancelled) rfl).bind fun r s₆ _ asked => ?_
        obtain ⟨answer, works₆, -⟩ := asked
        split
        · rename_i cancelled
          refine steps_leaveGaining works₆ low high (Or.inl here) fun quiet => ?_
          rw [show r = out.cancelled s₅.clock from answer, quiet] at cancelled
          cases cancelled
        · refine (steps_ingestFetched works₆ low nextBlocks (by omega) (by omega)
            ends.symm).mono fun v' s' _ ended => ?_
          obtain ⟨⟨count', above, there⟩, phase⟩ := ended
          refine ⟨count', by omega, there, fun quiet _ height tall => ?_⟩
          have := tall s₁.clock
          by_cases whole : n = config.rpcBatchSize
          · exact Or.inr ⟨phase quiet, by omega⟩
          · exact Or.inl (by omega)

/-- **A notification** leaves nothing unstored below the tip, and nothing above the last height. -/
theorem steps_notified (node : d.Node out size) (works : d.Works crc32 count s)
    (low : first ≤ count) (high : count ≤ max first (config.maxHeight + 1))
    (here : v.currentHeight = count) :
    Steps d crc32 out first (fun v' s' => ∃ count', count ≤ count' ∧
        d.At crc32 config out first count' v' s' ∧
        ∀ tip, out.tip s.clock = .ok tip → min tip config.maxHeight < count')
      (notified o config v) s := by
  unfold notified
  refine (works.asks low (c := .getTipHeight) rfl).bind fun r s₁ _ asked => ?_
  obtain ⟨tipAnswer, works₁, clock₁⟩ := asked
  refine (keeps_orFail (works₁.moment low)).bind fun tip s₂ _ same => ?_
  obtain ⟨rfl, rfl⟩ := same
  obtain ⟨tipped, tipSize⟩ := node.tipped (tipAnswer.symm : (out.tip s.clock).map asU32 = _)
  have grown := node.grows (show s.clock ≤ s₂.clock by omega)
  have within := node.within s₂.clock
  dsimp only
  rw [here]
  refine (steps_ingestNew node (min tip config.maxHeight + 1 - count) works₁ low
    (by omega)).bind fun r s₃ _ done => ?_
  obtain ⟨height, tracker⟩ := r
  obtain ⟨reached, works₃, clock₃⟩ := done
  have reached : height = count + (min tip config.maxHeight + 1 - count) := reached
  have inside := works₃.within
  dsimp only
  rw [← reached] at works₃ inside
  have low₃ : first ≤ height := by omega
  have high₃ : height ≤ max first (config.maxHeight + 1) := by omega
  have all : ∀ t, out.tip s.clock = .ok t → min t config.maxHeight < height := fun t same => by
    cases tipped.symm.trans same
    omega
  split
  · exact (steps_finish works₃ low₃).mono fun v' s' _ ended =>
      ⟨height, by omega, ⟨ended.2, low₃, high₃, Or.inl ended.1⟩, all⟩
  · refine .pure (works₃.moment low₃) ⟨height, by omega, ⟨works₃, low₃, high₃, ?_⟩, all⟩
    exact Or.inr (Or.inl rfl)

/-- An iteration that begins with a notification. -/
theorem steps_received (node : d.Node out size) (works : d.Works crc32 count s)
    (low : first ≤ count) (high : count ≤ max first (config.maxHeight + 1))
    (next : Next out count v s) (event : out.event s.clock = .received) :
    Steps d crc32 out first (fun v' s' => ∃ count', count ≤ count' ∧
        d.At crc32 config out first count' v' s' ∧
        ∀ tip, out.tip (s.clock + 1) = .ok tip → min tip config.maxHeight < count')
      (realTime o config v) s := by
  have here : v.currentHeight = count := by
    rcases next with here | ⟨c, before, cancelled⟩
    · exact here
    · cases event.symm.trans (node.told c s.clock before cancelled).2
  unfold realTime
  refine (works.asks low (c := .recvBlockHash) rfl).bind fun r s₁ _ asked => ?_
  obtain ⟨answer, works₁, clock₁⟩ := asked
  have answer : r = .received := answer.trans event
  subst answer
  rw [← clock₁]
  exact steps_notified node works₁ low high here

/-- **One iteration of the real-time loop.** -/
theorem steps_realTime (node : d.Node out size) (works : d.Works crc32 count s)
    (low : first ≤ count) (high : count ≤ max first (config.maxHeight + 1))
    (next : Next out count v s) :
    Steps d crc32 out first (d.Ahead crc32 config out first count) (realTime o config v) s := by
  cases event : out.event s.clock with
  | received =>
    exact (steps_received node works low high next event).mono fun v' s' _ ended => by
      obtain ⟨count', above, there, -⟩ := ended
      exact ⟨count', above, there⟩
  | shutdown =>
    unfold realTime
    refine (works.asks low (c := .recvBlockHash) rfl).bind fun r s₁ _ asked => ?_
    obtain ⟨answer, works₁, -⟩ := asked
    cases answer.trans event
    exact (steps_finish works₁ low).mono fun v' s' _ ended =>
      ⟨count, Nat.le_refl _, ended.2, low, high, Or.inl ended.1⟩
  | failed =>
    unfold realTime
    refine (works.asks low (c := .recvBlockHash) rfl).bind fun r s₁ _ asked => ?_
    obtain ⟨answer, works₁, clock₁⟩ := asked
    cases answer.trans event
    dsimp only
    split
    · exact .throw (works₁.moment low)
    · refine (works₁.asks low (c := .backoff) rfl).bind fun r s₂ _ asked => ?_
      obtain ⟨-, works₂, clock₂⟩ := asked
      split
      · exact (steps_finish works₂ low).mono fun v' s' _ ended =>
          ⟨count, Nat.le_refl _, ended.2, low, high, Or.inl ended.1⟩
      · exact .pure (works₂.moment low)
          ⟨count, Nat.le_refl _, works₂, low, high, Or.inr (next.later rfl (by omega))⟩

/-- One iteration of the loop the run is in. -/
theorem steps_iterate (node : d.Node out size) (at_v : d.At crc32 config out first count v s) :
    Steps d crc32 out first (d.Ahead crc32 config out first count) (iterate o config v) s := by
  obtain ⟨works, low, high, next⟩ := at_v
  unfold iterate
  cases phase : v.phase with
  | done => exact .pure (works.moment low) ⟨count, Nat.le_refl _, works, low, high, Or.inl phase⟩
  | catchUp =>
    have next : Next out count v s := next.resolve_left (by rw [phase]; decide)
    exact (steps_catchUp node works low high next).mono fun v' s' _ ended => by
      obtain ⟨count', above, there, -⟩ := ended
      exact ⟨count', above, there⟩
  | realTime =>
    have next : Next out count v s := next.resolve_left (by rw [phase]; decide)
    exact steps_realTime node works low high next

theorem steps_iterations (node : d.Node out size) (n : ℕ)
    (at_v : d.At crc32 config out first count v s) :
    Steps d crc32 out first (d.Ahead crc32 config out first count) (iterations o config n v) s := by
  induction n generalizing count v s with
  | zero => exact .pure (at_v.works.moment at_v.low) ⟨count, Nat.le_refl _, at_v⟩
  | succ n ih =>
    unfold iterations
    refine (steps_iterate node at_v).bind fun v₁ s₁ _ ahead => ?_
    obtain ⟨count₁, above, at_v₁⟩ := ahead
    refine (ih at_v₁).mono fun v₂ s₂ _ ahead => ?_
    obtain ⟨count₂, above₂, at_v₂⟩ := ahead
    exact ⟨count₂, above.trans above₂, at_v₂⟩

/-! ## Runs -/

/-- Everything before the loops. -/
theorem steps_begin (works : d.Works crc32 count s) :
    Steps d crc32 out count (fun v s' => d.Ahead crc32 config out count count v s' ∧
      v.phase = .catchUp) (begin config) s := by
  have low := Nat.le_refl count
  unfold begin
  refine (passes_restoreCache works low).keeps.bind fun _ s₁ _ done => ?_
  obtain ⟨c, s₂, acts, -, works₂⟩ := done.2.getCheckpoint out
  have checked : Steps d crc32 out count (fun _ s' => s' = s₂) (ensureSchema) s₁ := by
    unfold ensureSchema
    refine (steps_call acts done.2 works₂ low).bind fun r s₃ _ same => ?_
    obtain ⟨rfl, rfl⟩ := same
    exact .pure (works₂.moment low) rfl
  refine checked.bind fun _ s₃ _ same => ?_
  subst same
  obtain ⟨s₄, acts, works₄⟩ := works₂.syncCheckpointWithDb out
  refine (steps_call acts works₂ works₄ low).bind fun r s₅ _ same => ?_
  obtain ⟨rfl, rfl⟩ := same
  refine (works₄.asks low (c := .verifyConnection) rfl).bind fun r s₆ _ asked => ?_
  obtain ⟨-, works₆, -⟩ := asked
  refine (keeps_orFail (works₆.moment low)).bind fun _ s₇ _ same => ?_
  obtain ⟨rfl, -⟩ := same
  exact .pure (works₆.moment low)
    ⟨⟨count, low, works₆, low, Nat.le_max_left _ _, Or.inr (Or.inl rfl)⟩, rfl⟩

theorem steps_runLiveIngestion (node : d.Node out size) (works : d.Works crc32 count s) (n : ℕ) :
    Steps d crc32 out count (d.Ahead crc32 config out count count) (runLiveIngestion o config n)
      s := by
  unfold runLiveIngestion
  refine (steps_begin works).bind fun v s₁ _ begun => ?_
  obtain ⟨⟨count₁, above, at_v⟩, -⟩ := begun
  refine (steps_iterations node n at_v).mono fun v₂ s₂ _ ahead => ?_
  obtain ⟨count₂, above₂, at_v₂⟩ := ahead
  exact ⟨count₂, above.trans above₂, at_v₂⟩

/-- **Live mode over a growing chain.** Wherever a run of it is cut off, the database mirrors the
first blocks of the chain, no fewer than before. If so many iterations end without an error, the
next height is the number of stored blocks, unless the run has been cancelled; and if the next
iteration begins with a notification and ends without an error, everything up to the tip is
stored. -/
theorem live_follows (d : Course o) (config : Config) (crc32 : List UInt8 → UInt32) (out : Outside)
    (size : ℕ → ℕ) (node : d.Node out size) {count : ℕ} {s : State}
    (rests : d.Rests crc32 count s) (n : ℕ) :
    let h := Process.handle o crc32 out
    let start := restarted d.capacity s
    (∀ k, ∃ stored, count ≤ stored ∧
      d.Rests crc32 stored ((runLiveIngestion o config n).crash h k start)) ∧
    ∀ v s', (runLiveIngestion o config n).run h start = (.ok v, s') →
      ∃ stored, count ≤ stored ∧ stored ≤ max count (config.maxHeight + 1) ∧
        d.Rests crc32 stored s' ∧ (v.phase = .done ∨ Next out stored v s') ∧
        ∀ v' s'', v.phase = .realTime → out.event s'.clock = .received →
          (iterate o config v).run h s' = (.ok v', s'') →
          ∃ stored', stored ≤ stored' ∧ d.Rests crc32 stored' s'' ∧
            ∀ tip, out.tip (s'.clock + 1) = .ok tip → min tip config.maxHeight < stored' := by
  intro h start
  have steps : Steps d crc32 out count (d.Ahead crc32 config out count count)
    (runLiveIngestion o config n) start := steps_runLiveIngestion node rests.restarted n
  refine ⟨fun k => ?_, fun v s' ran => ?_⟩
  · obtain ⟨stored, above, works⟩ :=
      steps.crash (Prog.allAllowed_of_forall (fun _ _ => trivial) _ _ k)
    exact ⟨stored, above, works.toRests⟩
  · obtain ⟨-, stored, above, works, low, high, next⟩ := steps.done ran
    refine ⟨stored, above, high, works.toRests, next, fun v' s'' phase event ended => ?_⟩
    have next : Next out stored v s' := next.resolve_left (by rw [phase]; decide)
    have iteration : iterate o config v = realTime o config v := by
      unfold iterate
      rw [phase]
    rw [iteration] at ended
    obtain ⟨-, stored', above', there, all⟩ :=
      (steps_received node works low high next event).done ended
    exact ⟨stored', above', there.works.toRests, all⟩

/-! ## Catching up -/

/-- While a run catches up, each iteration adds a batch, until everything up to a height that the
node has is stored. -/
theorem steps_catchingUp (node : d.Node out size) (quiet : ∀ c, out.cancelled c = false)
    (positive : 0 < config.rpcBatchSize) {height : ℕ} (tall : ∀ c, height < size c) (n : ℕ)
    {start : ℕ} (at_v : d.At crc32 config out first count v s)
    (reached : min height config.maxHeight < count ∨ v.phase = .catchUp ∧ start ≤ count) :
    Steps d crc32 out first (fun v' s' => ∃ count', count ≤ count' ∧
        d.At crc32 config out first count' v' s' ∧
        (min height config.maxHeight < count' ∨ start + n * config.rpcBatchSize ≤ count'))
      (iterations o config n v) s := by
  induction n generalizing start count v s with
  | zero =>
    refine .pure (at_v.works.moment at_v.low) ⟨count, Nat.le_refl _, at_v, ?_⟩
    rw [Nat.zero_mul, Nat.add_zero]
    exact reached.imp_right And.right
  | succ n ih =>
    unfold iterations
    have step : Steps d crc32 out first (fun v' s' => ∃ count', count ≤ count' ∧
        d.At crc32 config out first count' v' s' ∧
        (min height config.maxHeight < count' ∨
          v'.phase = .catchUp ∧ start + config.rpcBatchSize ≤ count')) (iterate o config v) s := by
      rcases reached with all | ⟨phase, behind⟩
      · refine (steps_iterate node at_v).mono fun v' s' _ ahead => ?_
        obtain ⟨count', above, there⟩ := ahead
        exact ⟨count', above, there, Or.inl (by omega)⟩
      · unfold iterate
        rw [phase]
        have next : Next out count v s := at_v.next.resolve_left (by rw [phase]; decide)
        refine (steps_catchUp node at_v.works at_v.low at_v.high next).mono fun v' s' _ ended => ?_
        obtain ⟨count', above, there, gains⟩ := ended
        refine ⟨count', above, there, ?_⟩
        rcases gains quiet positive height tall with all | ⟨still, more⟩
        · exact Or.inl all
        · exact Or.inr ⟨still.trans phase, by omega⟩
    refine step.bind fun v₁ s₁ _ done => ?_
    obtain ⟨count₁, above, at_v₁, reached₁⟩ := done
    refine (ih at_v₁ reached₁).mono fun v₂ s₂ _ ended => ?_
    obtain ⟨count₂, above₂, at_v₂, reached₂⟩ := ended
    refine ⟨count₂, above.trans above₂, at_v₂, reached₂.imp_right fun more => ?_⟩
    rw [Nat.succ_mul]
    omega

/-- **Live mode catches up.** With a positive batch size and no cancellation, so many iterations
that end without an error store so many batches, or everything up to the last height asked for of
what the node has throughout. -/
theorem live_catches_up (d : Course o) (config : Config) (crc32 : List UInt8 → UInt32)
    (out : Outside) (size : ℕ → ℕ) (node : d.Node out size) {count : ℕ} {s : State}
    (rests : d.Rests crc32 count s) (quiet : ∀ c, out.cancelled c = false)
    (positive : 0 < config.rpcBatchSize) (height : ℕ) (tall : ∀ c, height < size c) (n : ℕ)
    (v : Vars) (s' : State) (ran : (runLiveIngestion o config n).run
      (Process.handle o crc32 out) (restarted d.capacity s) = (.ok v, s')) :
    ∃ stored, count ≤ stored ∧ d.Rests crc32 stored s' ∧
      (min height config.maxHeight < stored ∨ count + n * config.rpcBatchSize ≤ stored) := by
  have steps : Steps d crc32 out count (fun v' s' => ∃ stored, count ≤ stored ∧
      d.At crc32 config out count stored v' s' ∧
      (min height config.maxHeight < stored ∨ count + n * config.rpcBatchSize ≤ stored))
      (runLiveIngestion o config n) (restarted d.capacity s) := by
    unfold runLiveIngestion
    refine (steps_begin rests.restarted).bind fun v₁ s₁ _ begun => ?_
    obtain ⟨⟨count₁, above, at_v⟩, phase⟩ := begun
    refine (steps_catchingUp node quiet positive tall n at_v (Or.inr ⟨phase, above⟩)).mono
      fun v₂ s₂ _ ended => ?_
    obtain ⟨count₂, above₂, at_v₂, reached⟩ := ended
    exact ⟨count₂, above.trans above₂, at_v₂, reached⟩
  obtain ⟨-, stored, above, at_v, reached⟩ := steps.done ran
  exact ⟨stored, above, at_v.works.toRests, reached⟩

end Course

/-! ## The small chain from a node -/

namespace Sample

/-- A block as it comes from a node. -/
def fromNode (b : LocatedBlock) : LocatedBlock := { b with fileName := "rpc" }

theorem valid_fromNode : Valid outputs [fromNode first, fromNode second] where
  genesis b head := by
    cases head
    rfl
  adjacent := by
    simp [List.isChain_cons_cons, Adjacent, fromNode, first, second, block]
  linked := by decide
  txids := fromGenesis_sample.txids
  spends := fromGenesis_sample.spends
  hashes := by decide
  denoted := valid_first.denoted
  filled := by
    unfold IngestionOrchestrator.Filled
    decide
  word := by decide

/-- The small chain, for a process with a cache of 64 entries. -/
def followed : Course (orchestrator 1000000) where
  chain := [fromNode first, fromNode second]
  denotation := outputs
  capacity := 64
  valid := valid_fromNode
  recordable := course.recordable
  word := course.word
  room blocks inside := by
    have few : ∀ blocks ∈ [fromNode first, fromNode second].sublists,
        ∀ chunk ∈ (orchestrator 1000000).adaptiveChunks blocks,
          ((orchestrator 1000000).outputRows chunk).length ≤ 4 := by
      decide +kernel
    exact roomy_of_few (few blocks (List.mem_sublists.mpr inside.sublist))

/-- A node with both blocks. -/
def node : Process.Outside :=
  Live.Sample.outside (fun _ => 1) fun _ height => [first, second][height]?

/-- Catch-up one block at a time, without a cache file. -/
def blockwise : Process.Config := { Live.Sample.config "" with rpcBatchSize := 1 }

/-- Two iterations of it. -/
def caughtUp : Except String Live.Vars × Process.State :=
  (Live.runLiveIngestion (orchestrator 1000000) blockwise 2).run
    (Process.handle (orchestrator 1000000) Live.Sample.crc32 node)
    (Live.restarted 64 Sample.prepared)

end Sample

namespace Course

theorem node_sample : Sample.followed.Node Sample.node fun _ => 2 where
  grows _ _ _ := Nat.le_refl 2
  within _ := Nat.le_refl 2
  tip c t answered := by
    cases answered
    rfl
  block c height found answered := by
    cases answered
    match height with
    | 0 => rfl
    | 1 => rfl
    | height + 2 => rfl
  named b mem := by
    rcases List.mem_pair.mp mem with rfl | rfl <;> rfl
  told c c' _ cancelled := by cases cancelled

theorem followed_prepared : Sample.followed.Rests Live.Sample.crc32 0 Sample.prepared :=
  ⟨Nat.zero_le _, rests_prepared.mirrors, rests_prepared.file, rests_prepared.ongoing⟩

/-- Three iterations of live mode, cut off after nine calls. -/
theorem live_follows_sample : ∃ stored,
    (Sample.orchestrator 1000000).Mirrors ([Sample.fromNode Sample.first,
        Sample.fromNode Sample.second].take stored)
      ((Live.runLiveIngestion (Sample.orchestrator 1000000) (Live.Sample.config "utxo.cache")
        3).crash (Process.handle (Sample.orchestrator 1000000) Live.Sample.crc32 Sample.node) 9
        (Live.restarted 64 Sample.prepared)).graph := by
  obtain ⟨stored, -, rests⟩ := (live_follows Sample.followed (Live.Sample.config "utxo.cache")
    Live.Sample.crc32 Sample.node (fun _ => 2) node_sample followed_prepared 3).1 9
  exact ⟨stored, rests.mirrors⟩

/-- Two iterations with a batch size of one store both blocks. -/
theorem live_catches_up_sample : Sample.caughtUp.1 = .ok ⟨.catchUp, 2, some 1, 0⟩ ∧
    ∃ stored, Sample.followed.Rests Live.Sample.crc32 stored Sample.caughtUp.2 ∧ 1 < stored := by
  have answer : Sample.caughtUp.1 = .ok ⟨.catchUp, 2, some 1, 0⟩ := by decide +kernel
  have ran : Sample.caughtUp = (.ok ⟨.catchUp, 2, some 1, 0⟩, Sample.caughtUp.2) := by
    rw [← answer]
  refine ⟨answer, ?_⟩
  obtain ⟨stored, -, rests, reached⟩ := live_catches_up Sample.followed Sample.blockwise
    Live.Sample.crc32 Sample.node (fun _ => 2) node_sample followed_prepared (fun _ => rfl)
    (by decide) 1 (fun _ => by decide) 2 _ Sample.caughtUp.2 ran
  refine ⟨stored, rests, ?_⟩
  have last : Sample.blockwise.maxHeight = 4294967295 := rfl
  have batch : Sample.blockwise.rpcBatchSize = 1 := rfl
  rw [last, batch] at reached
  omega

end Course

end ChainGraph
