-- SUMMARY: What is remembered of each block for proof of stake, and its stored form.
import Chainstate.Block

namespace Chainstate

/-! ## Flags -/

structure StakeFlags where
  proofOfStake : Bool
  entropy : Bool
  modifier : Bool
  deriving DecidableEq

namespace StakeFlags

def none : StakeFlags := ⟨false, false, false⟩

def toNat (f : StakeFlags) : Nat :=
  f.proofOfStake.toNat + 2 * f.entropy.toNat + 4 * f.modifier.toNat

/-- The flags whose bits are set in a number below eight. -/
def ofNat? (n : Nat) : Option StakeFlags :=
  if n < 8 then some ⟨n % 2 = 1, n / 2 % 2 = 1, n / 4 % 2 = 1⟩ else Option.none

end StakeFlags

/-! ## Records -/

structure StakeRecord where
  flags : StakeFlags
  /-- Seeds the kernels of the blocks that follow. -/
  modifier : Digest
  time : UInt32
  /-- The digest that met the block's target. -/
  proof : Digest
  /-- What a proof-of-stake block staked. -/
  prevout : Option OutPoint
  deriving DecidableEq

namespace StakeRecord

/-- The record of a genesis block. -/
def initial : StakeRecord := ⟨StakeFlags.none, Digest.zero, 0, Digest.zero, none⟩

instance : Inhabited StakeRecord := ⟨initial⟩

def isProofOfStake (r : StakeRecord) : Bool := r.flags.proofOfStake

/-- The entropy of a block is the lowest bit of its digest. -/
def entropyBit (d : Digest) : Bool := (d.bytes.headD 0).toNat % 2 == 1

/-- The record of a block before its modifier and proof are known. -/
def ofBlock (b : Block) : StakeRecord :=
  { initial with
    flags := ⟨b.isProofOfStake, entropyBit b.digest, false⟩
    time := b.header.time
    prevout := do
      let tx ← b.coinstake?
      let i ← tx.inputs.head?
      pure i.prevout }

/-! ## Stored form -/

def encodePrevout : Option OutPoint → Bytes
  | none => [0]
  | some o => 1 :: o.encode

def decodePrevout : Decoder (Option OutPoint) := do
  let marker ← Decoder.u8
  if marker = 0 then pure none
  else if marker = 1 then do pure (some (← OutPoint.decode))
  else throw .badPrevoutMarker

def encode (r : StakeRecord) : Bytes :=
  Bytes.littleEndian 4 r.flags.toNat ++ r.modifier.bytes ++ Encode.u32 r.time ++ r.proof.bytes
    ++ encodePrevout r.prevout

def decodeFlags : Decoder StakeFlags := do
  let n ← Decoder.number 4 .u32
  match StakeFlags.ofNat? n with
  | some flags => pure flags
  | none => throw .unknownStakeFlags

def decode : Decoder StakeRecord := do
  let flags ← decodeFlags
  let modifier ← Decoder.digest
  let time ← Decoder.u32
  let proof ← Decoder.digest
  let prevout ← decodePrevout
  pure ⟨flags, modifier, time, proof, prevout⟩

def ofBytes (bs : Bytes) : Except DecodeError StakeRecord := Decoder.exactly decode bs

end StakeRecord

end Chainstate
