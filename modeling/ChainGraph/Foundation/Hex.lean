import ChainGraph.Foundation.Bytes

/-!
# Hexadecimal and decimal text

Bytes written with two digits each, the high half first, and read back; and when two texts made of a
part of known length, a separator and a decimal number are the same.
-/

namespace ChainGraph.Foundation.Hex

/-- The two digits of a byte. -/
def pair (b : UInt8) : List Char := [Nat.digitChar (b.toNat / 16), Nat.digitChar (b.toNat % 16)]

def encode (bytes : List UInt8) : List Char := bytes.flatMap pair

/-- The value of a digit, in either case. -/
def value (c : Char) : Option ℕ :=
  if c.isDigit then some (c.toNat - 48)
  else if 97 ≤ c.toNat ∧ c.toNat ≤ 102 then some (c.toNat - 87)
  else if 65 ≤ c.toNat ∧ c.toNat ≤ 70 then some (c.toNat - 55)
  else none

/-- The bytes of a text with an even number of digits. -/
def decode : List Char → Option (List UInt8)
  | [] => some []
  | [_] => none
  | high :: low :: rest => do
    let h ← value high
    let l ← value low
    let bytes ← decode rest
    pure (.ofNat (16 * h + l) :: bytes)

@[simp] theorem length_encode (bytes : List UInt8) : (encode bytes).length = 2 * bytes.length := by
  induction bytes with
  | nil => rfl
  | cons b bytes ih =>
    unfold encode at ih ⊢
    rw [List.flatMap_cons, List.length_append, ih, List.length_cons]
    simp only [pair, List.length_cons, List.length_nil]
    omega

/-- A digit is read as what it was written for. -/
theorem value_digitChar : ∀ d < 16, value (Nat.digitChar d) = some d := by decide

/-- Bytes are read as they were written. -/
theorem decode_encode (bytes : List UInt8) : decode (encode bytes) = some bytes := by
  induction bytes with
  | nil => rfl
  | cons b bytes ih =>
    have byte : b.toNat < 256 := b.toNat_lt
    have high := value_digitChar (b.toNat / 16) (by omega)
    have low := value_digitChar (b.toNat % 16) (by omega)
    have whole : UInt8.ofNat (16 * (b.toNat / 16) + b.toNat % 16) = b := by
      rw [Nat.div_add_mod, UInt8.ofNat_toNat]
    unfold encode at ih ⊢
    rw [List.flatMap_cons]
    show decode (_ :: _ :: bytes.flatMap pair) = _
    simp only [decode, high, low, ih, whole, Option.pure_def, Option.bind_eq_bind, Option.bind_some]

/-- Different numbers have different decimal texts. -/
theorem repr_injective : Function.Injective Nat.repr := by
  intro m n same
  have digits : Nat.toDigits 10 m = Nat.toDigits 10 n := by
    rw [← Nat.toList_repr, same, Nat.toList_repr]
  have read := Nat.ofDigitChars_ten_toDigits (n := m)
  rw [digits, Nat.ofDigitChars_ten_toDigits] at read
  exact read.symm

/-- A text in two parts with a separator determines its parts, when the first has a known length. -/
theorem eq_of_separated {a b : List Char} {m n : ℕ} (lengths : a.length = b.length)
    (same : a ++ ':' :: m.repr.toList = b ++ ':' :: n.repr.toList) : a = b ∧ m = n := by
  obtain ⟨left, right⟩ := List.append_inj same lengths
  refine ⟨left, repr_injective ?_⟩
  exact String.toList_inj.mp (List.cons.inj right).2

end ChainGraph.Foundation.Hex
