import ChainGraph.Parser.BlockIndex

/-!
# The varint of the block index

A varint is a numeral of the bijective system in base 128: its leading digits carry the high bit,
its last digit does not. `encodeVarint` is Bitcoin Core's `WriteVarInt`. The decoder, run over a
numeral, computes its number as long as it fits 64 bits, and refuses it otherwise; over bytes that
never end a numeral it runs out of data. No operator of the loop overflows on any of them.
-/

namespace ChainGraph

namespace BlockIndex

open Foundation Foundation.Numeration

/-! ## Bitcoin Core's encoding -/

/-- The loop of `WriteVarInt`. The groups go to a buffer, lowest first, which is written out
backwards; every group but the lowest has the flag. -/
def writeVarint (n : ℕ) (flag : UInt8) (out : List UInt8) : List UInt8 :=
  let out := (UInt8.ofNat (n % 128) ||| flag) :: out
  if n ≤ 127 then out else writeVarint (n / 128 - 1) 0x80 out
termination_by n

def encodeVarint (n : UInt64) : List UInt8 := writeVarint n.toNat 0 []

/-- The byte of a leading digit. -/
def leadingByte (d : ℕ) : UInt8 := UInt8.ofNat d ||| 0x80

/-- The byte of a last digit. -/
def lastByte (d : ℕ) : UInt8 := UInt8.ofNat d

theorem toNat_ofNat_digit {d : ℕ} (h : d < 128) : (UInt8.ofNat d).toNat = d := by
  rw [UInt8.toNat_ofNat']
  omega

theorem toNat_leadingByte {d : ℕ} (h : d < 128) : (leadingByte d).toNat = d + 128 := by
  have flag : (0x80 : UInt8).toNat = 2 ^ 7 * 1 := rfl
  rw [leadingByte, UInt8.toNat_or, flag, toNat_ofNat_digit h, Nat.or_comm,
    ← Nat.two_pow_add_eq_or_of_lt h]
  omega

theorem eq_leadingByte {c : UInt8} (h : 128 ≤ c.toNat) : c = leadingByte (c.toNat - 128) := by
  have small := c.toNat_lt
  apply UInt8.toNat_inj.mp
  rw [toNat_leadingByte (by omega)]
  omega

theorem eq_lastByte (c : UInt8) : c = lastByte c.toNat := by
  apply UInt8.toNat_inj.mp
  rw [lastByte, UInt8.toNat_ofNat']
  exact (Nat.mod_eq_of_lt c.toNat_lt).symm

theorem writeVarint_leading (n : ℕ) (out : List UInt8) :
    writeVarint n 0x80 out = (leading 128 (n + 1)).map leadingByte ++ out := by
  induction n using Nat.strongRecOn generalizing out with
  | ind n ih =>
    rw [writeVarint, leading]
    by_cases small : n ≤ 127
    · have none : n / 128 = 0 := Nat.div_eq_of_lt (by omega)
      rw [if_pos small, none]
      simp [leading, leadingByte]
    · have pred : n / 128 - 1 + 1 = n / 128 := by omega
      rw [if_neg small, ih (n / 128 - 1) (by omega), pred]
      simp [leadingByte]

/-- An encoding is the numeral of the number. -/
theorem encodeVarint_eq (n : UInt64) :
    encodeVarint n =
      (leading 128 (n.toNat / 128)).map leadingByte ++ [lastByte (n.toNat % 128)] := by
  rw [encodeVarint, writeVarint]
  have plain : UInt8.ofNat (n.toNat % 128) ||| 0 = lastByte (n.toNat % 128) := by
    simp [lastByte]
  rw [plain]
  by_cases small : n.toNat ≤ 127
  · have none : n.toNat / 128 = 0 := Nat.div_eq_of_lt (by omega)
    rw [if_pos small, none]
    simp [leading]
  · have pred : n.toNat / 128 - 1 + 1 = n.toNat / 128 := by omega
    rw [if_neg small, writeVarint_leading, pred]

/-! ## One byte -/

theorem continues_iff (c : UInt8) : c &&& 0x80 > 0 ↔ 128 ≤ c.toNat := by
  have small := c.toNat_lt
  have flag : (c &&& 0x80).toNat = (c.toNat.testBit 7).toNat * 2 ^ 7 := by
    rw [UInt8.toNat_and]
    exact Nat.and_two_pow c.toNat 7
  have none : (0 : UInt8).toNat = 0 := rfl
  rw [gt_iff_lt, UInt8.lt_iff_toNat_lt, flag, none, Nat.testBit_eq_decide_div_mod_eq]
  by_cases set : c.toNat / 2 ^ 7 % 2 = 1
  · simp only [set, decide_true, Bool.toNat_true]
    omega
  · simp only [set, decide_false, Bool.toNat_false]
    omega

theorem toNat_low (c : UInt8) : (c &&& 0x7F).toUInt64.toNat = c.toNat % 128 := by
  rw [UInt8.toNat_toUInt64, UInt8.toNat_and]
  exact Nat.and_two_pow_sub_one_eq_mod c.toNat 7

theorem toNat_limit : (u64Max >>> 7).toNat = 2 ^ 57 - 1 := by decide

/-- The number after one more group. -/
theorem toNat_pushed {n m : UInt64} (c : UInt8) (shifted : m.toNat = n.toNat * 2 ^ 7) :
    (m ||| (c &&& 0x7F).toUInt64).toNat = n.toNat * 128 + c.toNat % 128 := by
  have low : c.toNat % 128 < 2 ^ 7 := Nat.mod_lt _ (by decide)
  rw [UInt64.toNat_or, toNat_low, shifted, Nat.mul_comm n.toNat,
    ← Nat.two_pow_add_eq_or_of_lt low, Nat.mul_comm n.toNat]

variable {p r : List UInt8} {n : UInt64} {c : UInt8}

theorem decodeLoop_end (data : List UInt8) (n : UInt64) :
    ∃ e, decodeLoop data n data.length = .error (.returned e) := by
  rw [decodeLoop, if_pos (Nat.le_refl _)]
  exact ⟨_, rfl⟩

/-- A group that leaves the word is refused. -/
theorem decodeLoop_large (large : 2 ^ 57 ≤ n.toNat) :
    ∃ e, decodeLoop (p ++ c :: r) n p.length = .error (.returned e) := by
  have more : ¬ p.length ≥ (p ++ c :: r).length := by simp
  have beyond : n > u64Max >>> 7 := by
    rw [gt_iff_lt, UInt64.lt_iff_toNat_lt, toNat_limit]
    omega
  rw [decodeLoop, if_neg more, Checked.index_append]
  simp only [Except.bind, bind, if_pos beyond]
  exact ⟨_, rfl⟩

/-- Otherwise the group is taken in, and its flag decides what comes next. -/
theorem decodeLoop_small (small : n.toNat < 2 ^ 57) :
    ∃ m : UInt64, m.toNat = n.toNat * 128 + c.toNat % 128 ∧
      decodeLoop (p ++ c :: r) n p.length =
        if c &&& 0x80 > 0 then
          if m = u64Max then .error (.returned (.ParseError "Varint overflow"))
          else do
            let next ← Checked.succ m
            decodeLoop (p ++ c :: r) next (p.length + 1)
        else .ok (m, p.length + 1) := by
  have more : ¬ p.length ≥ (p ++ c :: r).length := by simp
  have fits : ¬ n > u64Max >>> 7 := by
    rw [gt_iff_lt, UInt64.lt_iff_toNat_lt, toNat_limit]
    omega
  obtain ⟨m, shifted, shl⟩ : ∃ m : UInt64, m.toNat = n.toNat * 2 ^ 7 ∧
      (Checked.shl n 7 : Checked IndexError UInt64) = .ok m :=
    Checked.shl_of_lt (by decide) (by omega)
  refine ⟨m ||| (c &&& 0x7F).toUInt64, toNat_pushed c shifted, ?_⟩
  rw [decodeLoop, if_neg more, Checked.index_append]
  simp only [Except.bind, bind, if_neg fits, shl]

/-! ## A numeral -/

variable {ds : List ℕ} {d : ℕ}

/-- The decoder over a numeral, read on from `n`. -/
theorem decodeLoop_numeral (digits : ∀ e ∈ ds, e < 128) (last : d < 128) :
    (carry 128 n.toNat ds * 128 + d < 2 ^ 64 →
      ∃ v : UInt64, v.toNat = carry 128 n.toNat ds * 128 + d ∧
        decodeLoop (p ++ (ds.map leadingByte ++ lastByte d :: r)) n p.length =
          .ok (v, p.length + ds.length + 1)) ∧
      (2 ^ 64 ≤ carry 128 n.toNat ds * 128 + d →
        ∃ e, decodeLoop (p ++ (ds.map leadingByte ++ lastByte d :: r)) n p.length =
          .error (.returned e)) := by
  induction ds generalizing p n with
  | nil =>
    have value : (lastByte d).toNat % 128 = d := by
      rw [lastByte, toNat_ofNat_digit last, Nat.mod_eq_of_lt last]
    have ends : ¬ lastByte d &&& 0x80 > 0 := by
      rw [continues_iff, lastByte, toNat_ofNat_digit last]
      omega
    simp only [carry_nil, List.map_nil, List.nil_append, List.length_nil, Nat.add_zero]
    constructor
    · intro fits
      obtain ⟨m, pushed, step⟩ := decodeLoop_small (p := p) (c := lastByte d) (r := r)
        (n := n) (by omega)
      refine ⟨m, by rw [pushed, value], ?_⟩
      rw [step, if_neg ends]
    · intro beyond
      exact decodeLoop_large (by omega)
  | cons e ds ih =>
    have small : e < 128 := digits e List.mem_cons_self
    have byte := toNat_leadingByte small
    have value : (leadingByte e).toNat % 128 = e := by omega
    have goesOn : leadingByte e &&& 0x80 > 0 := by
      rw [continues_iff, byte]
      omega
    have grows : n.toNat * 128 + e + 1 ≤ carry 128 (n.toNat * 128 + e + 1) ds :=
      le_carry (by decide)
    simp only [carry_cons, List.map_cons, List.cons_append, List.length_cons]
    by_cases large : 2 ^ 57 ≤ n.toNat
    · refine ⟨fun fits => ?_, fun _ => decodeLoop_large large⟩
      omega
    · obtain ⟨m, pushed, step⟩ := decodeLoop_small (p := p) (c := leadingByte e)
        (r := ds.map leadingByte ++ lastByte d :: r) (n := n) (by omega)
      rw [value] at pushed
      rw [step, if_pos goesOn]
      by_cases full : m = u64Max
      · have most : m.toNat = 2 ^ 64 - 1 := by
          rw [full]
          rfl
        rw [if_pos full]
        exact ⟨fun fits => by omega, fun _ => ⟨_, rfl⟩⟩
      · have below : m.toNat + 1 < 2 ^ 64 := by
          have bound := m.toNat_lt
          have other : m.toNat ≠ u64Max.toNat := fun same => full (UInt64.toNat_inj.mp same)
          have most : u64Max.toNat = 2 ^ 64 - 1 := rfl
          omega
        obtain ⟨next, carried, succ⟩ : ∃ next : UInt64, next.toNat = m.toNat + 1 ∧
            (Checked.succ m : Checked IndexError UInt64) = .ok next := Checked.succ_of_lt below
        rw [if_neg full, succ]
        have tail := ih (p := p ++ [leadingByte e]) (n := next) fun x mem =>
          digits x (List.mem_cons_of_mem e mem)
        rw [carried, pushed] at tail
        simp only [List.append_assoc, List.singleton_append, List.length_append,
          List.length_singleton] at tail
        simpa only [Except.bind, bind, Nat.add_assoc, Nat.add_comm 1] using tail

/-- Bytes that all have the flag are no numeral. -/
theorem decodeLoop_open (digits : ∀ e ∈ ds, e < 128) :
    ∃ e, decodeLoop (p ++ ds.map leadingByte) n p.length = .error (.returned e) := by
  induction ds generalizing p n with
  | nil =>
    rw [List.map_nil, List.append_nil]
    exact decodeLoop_end p n
  | cons e ds ih =>
    have small : e < 128 := digits e List.mem_cons_self
    have goesOn : leadingByte e &&& 0x80 > 0 := by
      rw [continues_iff, toNat_leadingByte small]
      omega
    rw [List.map_cons]
    by_cases large : 2 ^ 57 ≤ n.toNat
    · exact decodeLoop_large large
    · obtain ⟨m, -, step⟩ := decodeLoop_small (p := p) (c := leadingByte e)
        (r := ds.map leadingByte) (n := n) (by omega)
      rw [step, if_pos goesOn]
      by_cases full : m = u64Max
      · rw [if_pos full]
        exact ⟨_, rfl⟩
      · have below : m.toNat + 1 < 2 ^ 64 := by
          have bound := m.toNat_lt
          have other : m.toNat ≠ u64Max.toNat := fun same => full (UInt64.toNat_inj.mp same)
          have most : u64Max.toNat = 2 ^ 64 - 1 := rfl
          omega
        obtain ⟨next, -, succ⟩ : ∃ next : UInt64, next.toNat = m.toNat + 1 ∧
            (Checked.succ m : Checked IndexError UInt64) = .ok next := Checked.succ_of_lt below
        rw [if_neg full, succ]
        have tail := ih (p := p ++ [leadingByte e]) (n := next) fun x mem =>
          digits x (List.mem_cons_of_mem e mem)
        simp only [List.append_assoc, List.singleton_append, List.length_append,
          List.length_singleton] at tail
        exact tail

/-! ## Every byte string -/

/-- A byte string either starts with a numeral or has no byte without the flag. -/
theorem numeral_or_open (data : List UInt8) :
    ∃ ds : List ℕ, (∀ e ∈ ds, e < 128) ∧
      (data = ds.map leadingByte ∨
        ∃ d rest, d < 128 ∧ data = ds.map leadingByte ++ lastByte d :: rest) := by
  induction data with
  | nil => exact ⟨[], by simp, Or.inl rfl⟩
  | cons c data ih =>
    have small := c.toNat_lt
    by_cases goesOn : 128 ≤ c.toNat
    · obtain ⟨ds, digits, shape⟩ := ih
      refine ⟨(c.toNat - 128) :: ds, ?_, ?_⟩
      · intro e mem
        cases List.mem_cons.mp mem with
        | inl same => omega
        | inr mem => exact digits e mem
      · rw [List.map_cons, ← eq_leadingByte goesOn]
        rcases shape with rfl | ⟨d, rest, last, rfl⟩
        · exact Or.inl rfl
        · exact Or.inr ⟨d, rest, last, by rw [List.cons_append]⟩
    · exact ⟨[], by simp, Or.inr ⟨c.toNat, data, by omega, by rw [← eq_lastByte]; rfl⟩⟩

/-- The numeral of a number is the only one. -/
theorem encodeVarint_of_numeral {v : UInt64} (digits : ∀ e ∈ ds, e < 128) (last : d < 128)
    (number : v.toNat = carry 128 0 ds * 128 + d) :
    encodeVarint v = ds.map leadingByte ++ [lastByte d] := by
  have quotient : v.toNat / 128 = carry 128 0 ds := by omega
  have remainder : v.toNat % 128 = d := by omega
  rw [encodeVarint_eq, quotient, remainder, leading_carry (by decide) digits]

theorem length_encodeVarint (n : UInt64) :
    (encodeVarint n).length = (leading 128 (n.toNat / 128)).length + 1 := by
  rw [encodeVarint_eq]
  simp

/-- What is encoded is read back, whatever follows it. -/
theorem decodeVarint_encodeVarint (n : UInt64) (rest : List UInt8) :
    decodeVarint (encodeVarint n ++ rest) = .ok (n, (encodeVarint n).length) := by
  have digits : ∀ e ∈ leading 128 (n.toNat / 128), e < 128 := leading_lt (by decide)
  have last : n.toNat % 128 < 128 := Nat.mod_lt _ (by decide)
  have number : carry 128 0 (leading 128 (n.toNat / 128)) * 128 + n.toNat % 128 = n.toNat := by
    rw [carry_leading]
    omega
  have start : (0 : UInt64).toNat = 0 := rfl
  have read := (decodeLoop_numeral (p := []) (r := rest) (n := 0) digits last).1
  rw [start, number] at read
  obtain ⟨v, value, ran⟩ := read n.toNat_lt
  rw [List.nil_append, List.append_cons, ← encodeVarint_eq] at ran
  obtain rfl := UInt64.toNat_inj.mp value
  rw [length_encodeVarint, decodeVarint]
  simpa using ran

/-- The outcome of the decoder on any bytes: the number whose encoding they start with, or an
error that the decoder returns. -/
theorem decodeVarint_cases (data : List UInt8) :
    (∃ v, encodeVarint v <+: data ∧ decodeVarint data = .ok (v, (encodeVarint v).length)) ∨
      ∃ e, decodeVarint data = .error (.returned e) := by
  have start : (0 : UInt64).toNat = 0 := rfl
  obtain ⟨ds, digits, shape⟩ := numeral_or_open data
  rcases shape with rfl | ⟨d, rest, last, rfl⟩
  · exact Or.inr (decodeLoop_open (p := []) digits)
  · have read := decodeLoop_numeral (p := []) (r := rest) (n := 0) digits last
    rw [start] at read
    by_cases fits : carry 128 0 ds * 128 + d < 2 ^ 64
    · obtain ⟨v, value, -⟩ := read.1 fits
      have shape : ds.map leadingByte ++ lastByte d :: rest = encodeVarint v ++ rest := by
        rw [encodeVarint_of_numeral digits last value, ← List.append_cons]
      rw [shape]
      exact Or.inl ⟨v, List.prefix_append _ _, decodeVarint_encodeVarint v rest⟩
    · exact Or.inr (read.2 (Nat.le_of_not_lt fits))

/-- **The varint codec.** Every number has one encoding, which is read back in front of any bytes
and takes its own length; bytes that are accepted start with the encoding of the number they are
accepted as; all others are refused with an error. On no bytes does an operator overflow or an
index leave the slice. -/
theorem decodeVarint_inverse :
    (∀ (n : UInt64) (rest : List UInt8),
      decodeVarint (encodeVarint n ++ rest) = .ok (n, (encodeVarint n).length)) ∧
    (∀ (n : UInt64) (bytes : List UInt8),
      decodeVarint bytes = .ok (n, bytes.length) ↔ bytes = encodeVarint n) ∧
    (∀ (data : List UInt8) (v : UInt64) (k : ℕ), decodeVarint data = .ok (v, k) →
      k ≤ data.length ∧ data.take k = encodeVarint v) ∧
    (∀ data : List UInt8, (¬ ∃ v, encodeVarint v <+: data) →
      ∃ e, decodeVarint data = .error (.returned e)) ∧
    ∀ data : List UInt8, (decodeVarint data).Safe := by
  have accepted : ∀ (data : List UInt8) (v : UInt64) (k : ℕ), decodeVarint data = .ok (v, k) →
      k ≤ data.length ∧ data.take k = encodeVarint v := by
    intro data v k ok
    rcases decodeVarint_cases data with ⟨w, ⟨rest, rfl⟩, read⟩ | ⟨e, refused⟩
    · cases read.symm.trans ok
      simp
    · cases refused.symm.trans ok
  refine ⟨decodeVarint_encodeVarint, fun n bytes => ⟨fun ok => ?_, ?_⟩, accepted, ?_, ?_⟩
  · have whole := (accepted bytes n bytes.length ok).2
    rwa [List.take_length] at whole
  · rintro rfl
    simpa using decodeVarint_encodeVarint n []
  · intro data none
    rcases decodeVarint_cases data with ⟨v, starts, -⟩ | refused
    · exact absurd ⟨v, starts⟩ none
    · exact refused
  · intro data p panics
    rcases decodeVarint_cases data with ⟨v, -, read⟩ | ⟨e, refused⟩
    · cases read.symm.trans panics
    · cases refused.symm.trans panics

/-- The bytes of a version number in a real index. -/
theorem decodeVarint_version : [0x8E, 0xED, 0x3C].take 3 = encodeVarint 259900 :=
  (decodeVarint_inverse.2.2.1 [0x8E, 0xED, 0x3C] 259900 3 (by decide +kernel)).2

end BlockIndex

end ChainGraph
