import Mathlib.Data.Nat.Bitwise
import Mathlib.Tactic.Common

/-!
# Little-endian words and a sequential reader

A reader takes bytes from the front of a source and feeds some of them to a checksum. What it reads
is stated by `Reads`: from every source that starts with certain bytes it takes exactly those, and
leaves the rest. The rules follow the shape of a reader, so that a format is proved readable in the
order in which it was written.
-/

namespace ChainGraph.Foundation

/-! ## Little-endian words -/

/-- The `k` little-endian bytes of a number; higher bits are dropped. -/
def leBytes : ℕ → ℕ → List UInt8
  | 0, _ => []
  | k + 1, n => .ofNat n :: leBytes k (n / 256)

/-- The number with the given little-endian bytes. -/
def ofLe (bytes : List UInt8) : ℕ := bytes.foldr (fun b n => b.toNat + 256 * n) 0

@[simp] theorem length_leBytes (k n : ℕ) : (leBytes k n).length = k := by
  induction k generalizing n with
  | zero => rfl
  | succ k ih => rw [leBytes, List.length_cons, ih]

/-- The bytes of a number are those of the number modulo what they can hold. -/
theorem ofLe_leBytes (k n : ℕ) : ofLe (leBytes k n) = n % 256 ^ k := by
  induction k generalizing n with
  | zero => simp [leBytes, ofLe, Nat.mod_one]
  | succ k ih =>
    have first : (UInt8.ofNat n).toNat = n % 256 := UInt8.toNat_ofNat'
    have rest := ih (n / 256)
    unfold ofLe at rest ⊢
    rw [leBytes, List.foldr_cons, rest, first, pow_succ', Nat.mod_mul]

theorem ofLe_leBytes_of_lt {k n : ℕ} (h : n < 256 ^ k) : ofLe (leBytes k n) = n := by
  rw [ofLe_leBytes, Nat.mod_eq_of_lt h]

theorem ofLe_lt (bytes : List UInt8) : ofLe bytes < 256 ^ bytes.length := by
  induction bytes with
  | nil => simp [ofLe]
  | cons b bytes ih =>
    have byte : b.toNat < 256 := b.toNat_lt
    unfold ofLe at ih ⊢
    rw [List.foldr_cons, List.length_cons, pow_succ]
    omega

/-- Every string of bytes is that of the number it denotes. -/
theorem leBytes_ofLe (bytes : List UInt8) : leBytes bytes.length (ofLe bytes) = bytes := by
  induction bytes with
  | nil => rfl
  | cons b bytes ih =>
    have byte : b.toNat < 256 := b.toNat_lt
    have low : UInt8.ofNat (ofLe (b :: bytes)) = b := by
      apply UInt8.toNat_inj.mp
      rw [UInt8.toNat_ofNat']
      show (b.toNat + 256 * ofLe bytes) % 256 = b.toNat
      omega
    have high : ofLe (b :: bytes) / 256 = ofLe bytes := by
      show (b.toNat + 256 * ofLe bytes) / 256 = ofLe bytes
      omega
    rw [List.length_cons, leBytes, low, high, ih]

/-! ## Readers -/

/-- What is left to read, and the bytes that went through the checksum. -/
structure Source where
  rest : List UInt8
  hashed : List UInt8
deriving DecidableEq, Repr

abbrev Reader (ε α : Type) := StateT Source (Except ε) α

namespace Reader

variable {ε α β : Type}

/-- Take `n` bytes, or end with the error for a source that is too short. -/
def readExact (eof : ε) (n : ℕ) : Reader ε (List UInt8) := fun s =>
  if n ≤ s.rest.length then .ok (s.rest.take n, { s with rest := s.rest.drop n }) else .error eof

/-- Feed bytes to the checksum. -/
def hash (bytes : List UInt8) : Reader ε Unit := fun s =>
  .ok ((), { s with hashed := s.hashed ++ bytes })

/-- End with an error. -/
def fail (e : ε) : Reader ε α := fun _ => .error e

/-- Take `n` bytes and feed them to the checksum. -/
def readHashed (eof : ε) (n : ℕ) : Reader ε (List UInt8) := do
  let bytes ← readExact eof n
  hash bytes
  pure bytes

/-- Run a reader so many times. -/
def times (r : Reader ε α) : ℕ → Reader ε (List α)
  | 0 => pure []
  | n + 1 => do
    let a ← r
    let rest ← r.times n
    pure (a :: rest)

/-- From a source that starts with `bytes` the reader takes these, feeds `fed` to the checksum and
yields `a`. -/
def Reads (r : Reader ε α) (bytes fed : List UInt8) (a : α) : Prop :=
  ∀ rest hashed, r ⟨bytes ++ rest, hashed⟩ = .ok (a, ⟨rest, hashed ++ fed⟩)

theorem Reads.pure (a : α) : Reads (Pure.pure a : Reader ε α) [] [] a := by
  intro rest hashed
  rw [List.append_nil]
  rfl

theorem Reads.bind {r : Reader ε α} {f : α → Reader ε β} {bytes fed bytes' fed' : List UInt8}
    {a : α} {b : β} (first : Reads r bytes fed a) (next : Reads (f a) bytes' fed' b) :
    Reads (r >>= f) (bytes ++ bytes') (fed ++ fed') b := by
  intro rest hashed
  show (r ⟨bytes ++ bytes' ++ rest, hashed⟩ >>= fun p => f p.1 p.2) = _
  rw [List.append_assoc, first, ← List.append_assoc]
  exact next rest (hashed ++ fed)

/-- A continuation that reads nothing more. -/
theorem Reads.done {r : Reader ε α} {f : α → Reader ε β} {bytes fed : List UInt8} {a : α} {b : β}
    (last : Reads r bytes fed a) (answer : Reads (f a) [] [] b) :
    Reads (r >>= f) bytes fed b := by
  have whole := last.bind answer
  rwa [List.append_nil, List.append_nil] at whole

/-- Two readers that hash nothing. -/
theorem Reads.plain {r : Reader ε α} {f : α → Reader ε β} {bytes bytes' : List UInt8} {a : α}
    {b : β} (first : Reads r bytes [] a) (next : Reads (f a) bytes' [] b) :
    Reads (r >>= f) (bytes ++ bytes') [] b :=
  first.bind next

theorem reads_readExact (eof : ε) {n : ℕ} {bytes : List UInt8} (size : bytes.length = n) :
    Reads (readExact eof n) bytes [] bytes := by
  subst size
  intro rest hashed
  unfold readExact
  rw [if_pos (by simp), List.append_nil]
  simp

theorem reads_hash (bytes : List UInt8) : Reads (hash bytes : Reader ε Unit) [] bytes () :=
  fun _ _ => rfl

theorem reads_readHashed (eof : ε) {n : ℕ} {bytes : List UInt8} (size : bytes.length = n) :
    Reads (readHashed eof n) bytes bytes bytes := by
  have whole : Reads (readHashed eof n) (bytes ++ []) ([] ++ bytes) bytes :=
    (reads_readExact eof size).bind ((reads_hash bytes).done (Reads.pure bytes))
  simpa using whole

/-- As many runs of a reader as there are pieces read the pieces in their order. -/
theorem reads_times {r : Reader ε α} (enc : α → List UInt8) {as : List α}
    (each : ∀ a ∈ as, Reads r (enc a) (enc a) a) :
    Reads (r.times as.length) (as.flatMap enc) (as.flatMap enc) as := by
  induction as with
  | nil => exact Reads.pure []
  | cons a as ih =>
    have tail := ih fun b mem => each b (List.mem_cons_of_mem a mem)
    rw [List.flatMap_cons]
    exact (each a List.mem_cons_self).bind (tail.done (Reads.pure (a :: as)))

/-! ## What any source can yield -/

/-- Whatever the source, what the reader yields has the property. -/
def Yields (r : Reader ε α) (P : α → Prop) : Prop := ∀ s a s', r s = .ok (a, s') → P a

theorem Yields.pure {P : α → Prop} {a : α} (h : P a) : Yields (Pure.pure a : Reader ε α) P := by
  intro s b s' run
  cases run
  exact h

theorem Yields.fail (e : ε) (P : α → Prop) : Yields (fail e) P := by
  intro s a s' run
  cases run

theorem Yields.bind {r : Reader ε α} {f : α → Reader ε β} {P : α → Prop} {Q : β → Prop}
    (first : Yields r P) (next : ∀ a, P a → Yields (f a) Q) : Yields (r >>= f) Q := by
  intro s b s' run
  change (r s >>= fun p => f p.1 p.2) = _ at run
  cases ran : r s with
  | error e =>
    rw [ran] at run
    cases run
  | ok p =>
    rw [ran] at run
    exact next p.1 (first s p.1 p.2 ran) p.2 b s' run

theorem yields_readExact (eof : ε) (n : ℕ) :
    Yields (readExact eof n) fun bytes => bytes.length = n := by
  intro s bytes s' run
  unfold readExact at run
  split at run
  · rename_i enough
    cases run
    exact List.length_take_of_le enough
  · cases run

theorem yields_readHashed (eof : ε) (n : ℕ) :
    Yields (readHashed eof n) fun bytes => bytes.length = n :=
  (yields_readExact eof n).bind fun _ size =>
    Yields.bind (P := fun _ => True) (fun _ _ _ _ => trivial) fun _ _ => Yields.pure size

theorem yields_times {r : Reader ε α} {P : α → Prop} (each : Yields r P) (n : ℕ) :
    Yields (r.times n) fun as => ∀ a ∈ as, P a := by
  induction n with
  | zero => exact Yields.pure (by simp)
  | succ n ih =>
    refine each.bind fun a ha => ih.bind fun as has => Yields.pure ?_
    simpa using ⟨ha, has⟩

end Reader

end ChainGraph.Foundation
