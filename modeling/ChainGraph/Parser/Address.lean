import ChainGraph.Parser.Block

/-!
# Address extraction

`extract_address` decides by the shape of a scriptPubKey which template it is and asks the
`bitcoin` crate for the address. The crate's script predicates are a few byte comparisons and are
written out here; its encoders (base58, bech32 and public key parsing) are not, and stand as the
parameter `AddressCrate`.
-/

namespace ChainGraph

inductive Network where
  | Bitcoin
  | Testnet
  | Signet
  | Regtest
deriving DecidableEq, Repr

/-- Types of Bitcoin script patterns. -/
inductive ScriptType where
  | P2PKH
  | P2SH
  | P2WPKH
  | P2WSH
  | P2TR
  | P2PK
  | NullData
  | Unknown
deriving DecidableEq, Repr

/-- The text form of an address. -/
abbrev Address := String

/-- The parts of the crate that turn scripts and keys into addresses: `Address::from_script`, the
acceptance of a byte string by `PublicKey::from_slice`, and `Address::p2pkh` of such a key. -/
structure AddressCrate where
  fromScript : Script → Network → Option Address
  publicKeyFromSlice : List UInt8 → Bool
  p2pkh : List UInt8 → Network → Address

structure AddressInfo where
  address : Option Address
  scriptType : ScriptType
deriving DecidableEq, Repr

/-! ## The crate's script predicates -/

namespace Script

def isOpReturn : Script → Bool
  | op :: _ => op = 0x6a
  | [] => false

def isP2pkh (s : Script) : Bool :=
  s.length = 25 ∧ s[0]? = some 0x76 ∧ s[1]? = some 0xa9 ∧ s[2]? = some 0x14 ∧
    s[23]? = some 0x88 ∧ s[24]? = some 0xac

def isP2sh (s : Script) : Bool :=
  s.length = 23 ∧ s[0]? = some 0xa9 ∧ s[1]? = some 0x14 ∧ s[22]? = some 0x87

/-- The version an opcode stands for: 0 for `OP_0`, 1 to 16 for `OP_1` to `OP_16`. -/
def witnessVersionOf (op : UInt8) : Option ℕ :=
  if op = 0 then some 0
  else if 0x51 ≤ op ∧ op ≤ 0x60 then some (op.toNat - 0x50)
  else none

/-- A version opcode and a single direct push of 2 to 40 bytes that fills the script. -/
def isWitnessProgram : Script → Bool
  | ver :: push :: program =>
    (witnessVersionOf ver).isSome ∧ 2 ≤ push.toNat ∧ push.toNat ≤ 40 ∧
      program.length = push.toNat
  | _ => false

def witnessVersion : Script → Option ℕ
  | ver :: _ => witnessVersionOf ver
  | [] => none

end Script

/-! ## Instructions -/

/-- What the instruction iterator yields. -/
inductive Instruction where
  | pushBytes (bytes : List UInt8)
  | op (code : UInt8)
  | error
deriving DecidableEq, Repr

/-- Take `n` pushed bytes, or report the script as cut short. -/
def takePush (n : ℕ) (rest : Script) : Instruction × Script :=
  if n ≤ rest.length then (.pushBytes (rest.take n), rest.drop n) else (.error, [])

/-- A little-endian length of `width` bytes and then that many bytes. -/
def takePushData (width : ℕ) (rest : Script) : Instruction × Script :=
  if width ≤ rest.length then
    takePush ((rest.take width).foldr (fun b n => b.toNat + 256 * n) 0) (rest.drop width)
  else (.error, [])

/-- One step of the iterator. After an error it is exhausted. -/
def nextInstruction (code : UInt8) (rest : Script) : Instruction × Script :=
  if code.toNat ≤ 75 then takePush code.toNat rest
  else if code = 76 then takePushData 1 rest
  else if code = 77 then takePushData 2 rest
  else if code = 78 then takePushData 4 rest
  else (.op code, rest)

/-- The instructions of a script; every one takes at least a byte, so the length is fuel enough. -/
def instructionsFrom : ℕ → Script → List Instruction
  | fuel + 1, code :: rest =>
    (nextInstruction code rest).1 :: instructionsFrom fuel (nextInstruction code rest).2
  | _, _ => []

def instructions (s : Script) : List Instruction := instructionsFrom s.length s

/-! ## Extraction -/

/-- `<pubkey> OP_CHECKSIG`, with the address derived by hashing the key. -/
def extractP2pkAddress (crate : AddressCrate) (script : Script) (network : Network) :
    Option Address :=
  match instructions script with
  | [.pushBytes bytes, .op 0xac] =>
    if crate.publicKeyFromSlice bytes then some (crate.p2pkh bytes network) else none
  | _ => none

/-- The type `t` with the crate's address, or `Unknown` without one if the crate has none. -/
def addressAs (crate : AddressCrate) (script : Script) (network : Network) (t : ScriptType) :
    AddressInfo :=
  match crate.fromScript script network with
  | some address => ⟨some address, t⟩
  | none => ⟨none, .Unknown⟩

/-- Extract address and script type from a scriptPubKey. -/
def extractAddress (crate : AddressCrate) (script : Script) (network : Network) : AddressInfo :=
  if Script.isOpReturn script then ⟨none, .NullData⟩
  else if Script.isP2pkh script then addressAs crate script network .P2PKH
  else if Script.isP2sh script then addressAs crate script network .P2SH
  else
    match (if Script.isWitnessProgram script then Script.witnessVersion script else none) with
    | some 0 =>
      addressAs crate script network
        (if script.length = 22 then .P2WPKH else if script.length = 34 then .P2WSH else .Unknown)
    | some 1 => addressAs crate script network .P2TR
    | some _ => ⟨none, .Unknown⟩
    | none =>
      match extractP2pkAddress crate script network with
      | some address => ⟨some address, .P2PK⟩
      | none => ⟨none, .Unknown⟩

end ChainGraph
