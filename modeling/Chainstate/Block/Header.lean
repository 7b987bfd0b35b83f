-- SUMMARY: Block headers, their 80-byte form and their digest.
import Chainstate.Digest.Sha256
import Chainstate.Target.Compact
import Chainstate.Wire.Decoder

namespace Chainstate

structure Header where
  version : Int32
  previous : Digest
  merkleRoot : Digest
  time : UInt32
  bits : CompactTarget
  nonce : UInt32
  deriving DecidableEq

namespace Header

def encode (h : Header) : Bytes :=
  Encode.i32 h.version ++ h.previous.bytes ++ h.merkleRoot.bytes ++ Encode.u32 h.time
    ++ Encode.u32 h.bits.bits ++ Encode.u32 h.nonce

def decode : Decoder Header := do
  let version ← Decoder.i32
  let previous ← Decoder.digest
  let merkleRoot ← Decoder.digest
  let time ← Decoder.u32
  let bits ← Decoder.u32
  let nonce ← Decoder.u32
  pure ⟨version, previous, merkleRoot, time, ⟨bits⟩, nonce⟩

def ofBytes (bs : Bytes) : Except DecodeError Header := Decoder.exactly decode bs

@[simp] theorem length_encode (h : Header) : h.encode.length = 80 := by
  simp [encode, Encode.i32, Encode.u32, h.previous.length_bytes, h.merkleRoot.length_bytes]

def digest (h : Header) : Digest := sha256d h.encode

end Header

end Chainstate
