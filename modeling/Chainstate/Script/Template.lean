-- SUMMARY: The standard forms of output scripts: how each is built and how it is recognised.
import Chainstate.Script

/-!
# Templates

Each template has a builder and a recogniser that gives back what the builder was given.
-/

namespace Chainstate

namespace Script

/-! ## Builders -/

/-- Pays to whoever signs with `key`. -/
def payToKey (key : Bytes) : Script :=
  ⟨UInt8.ofNat key.length :: key ++ [Opcode.checkSig]⟩

/-- Pays to whoever shows a key with this hash and signs with it. -/
def payToKeyHash (hash : Bytes) : Script :=
  ⟨[Opcode.dup, Opcode.hash160, 0x14] ++ hash ++ [Opcode.equalVerify, Opcode.checkSig]⟩

/-- Carries data and can never be spent. -/
def dataCarrier (data : Bytes) : Script := ⟨Opcode.opReturn :: pushData data⟩

/-- Lets the `hot` key stake and the `cold` key spend. -/
def coldStaking (hot cold : Bytes) : Script :=
  ⟨[Opcode.dup, Opcode.hash160, Opcode.rot, Opcode.opIf, Opcode.checkColdStakeVerify, 0x14] ++ hot
    ++ [Opcode.opElse, 0x14] ++ cold ++ [Opcode.opEndIf, Opcode.equalVerify, Opcode.checkSig]⟩

/-! ## Recognisers -/

/-- The lengths of compressed and of uncompressed public keys. -/
def isKeyLength (n : Nat) : Bool := n == 33 || n == 65

/-- The key of a `payToKey` script. -/
def paidKey? (s : Script) : Option Bytes :=
  match s.bytes with
  | [] => none
  | n :: rest =>
    if isKeyLength n.toNat && rest.length == n.toNat + 1
        && rest.drop n.toNat == [Opcode.checkSig] then
      some (rest.take n.toNat)
    else none

def isPayToKeyHash (s : Script) : Bool :=
  s.bytes.length == 25 && s.bytes.take 3 == [Opcode.dup, Opcode.hash160, 0x14]
    && s.bytes.drop 23 == [Opcode.equalVerify, Opcode.checkSig]

/-- The key carried by a `dataCarrier` script that carries a key and nothing else. -/
def carriedKey? (s : Script) : Option Bytes :=
  match s.bytes with
  | ret :: n :: key =>
    if ret == Opcode.opReturn && isKeyLength n.toNat && key.length == n.toNat then some key
    else none
  | _ => none

def carriesKey (s : Script) : Bool := s.carriedKey?.isSome

/-- The hot and cold key hashes of a `coldStaking` script. -/
def coldStakingKeys? (s : Script) : Option (Bytes × Bytes) :=
  if s.bytes.length == 51
      && s.bytes.take 6 == [Opcode.dup, Opcode.hash160, Opcode.rot, Opcode.opIf,
        Opcode.checkColdStakeVerify, 0x14]
      && (s.bytes.drop 26).take 2 == [Opcode.opElse, 0x14]
      && s.bytes.drop 48 == [Opcode.opEndIf, Opcode.equalVerify, Opcode.checkSig] then
    some ((s.bytes.drop 6).take 20, (s.bytes.drop 28).take 20)
  else none

def isColdStaking (s : Script) : Bool := s.coldStakingKeys?.isSome

end Script

end Chainstate
