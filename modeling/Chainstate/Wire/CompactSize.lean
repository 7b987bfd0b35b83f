-- SUMMARY: Variable-length sizes and length-prefixed byte strings.
import Chainstate.Wire.Decoder

/-!
# Compact sizes

A size below 253 is one byte; larger sizes are a marker byte followed by two, four or eight
bytes, and only the shortest form is accepted. Sizes above `CompactSize.maxSize` are refused
before anything is read for them.
-/

namespace Chainstate

namespace CompactSize

/-- No length prefix above this describes data that fits in a block. -/
def maxSize : Nat := 0x02000000

def encode (n : Nat) : Bytes :=
  if n ≤ 0xfc then [UInt8.ofNat n]
  else if n ≤ 0xffff then 0xfd :: Bytes.littleEndian 2 n
  else if n ≤ 0xffffffff then 0xfe :: Bytes.littleEndian 4 n
  else 0xff :: Bytes.littleEndian 8 n

/-- The number of bytes of `encode n`. -/
def length (n : Nat) : Nat :=
  if n ≤ 0xfc then 1
  else if n ≤ 0xffff then 3
  else if n ≤ 0xffffffff then 5
  else 9

theorem length_encode (n : Nat) : (encode n).length = length n := by
  unfold encode length
  repeat' split
  all_goals simp

/-- Accepts a size that needed its form and is within the limit. -/
def accept (least n : Nat) : Decoder Nat :=
  if n < least then throw .nonMinimalSize
  else if maxSize < n then throw .sizeTooLarge
  else pure n

def decode : Decoder Nat := do
  let marker ← Decoder.u8
  if marker.toNat ≤ 0xfc then accept 0 marker.toNat
  else if marker.toNat = 0xfd then accept 0xfd (← Decoder.number 2 .u16)
  else if marker.toNat = 0xfe then accept 0x10000 (← Decoder.number 4 .u32)
  else accept 0x100000000 (← Decoder.number 8 .u64)

end CompactSize

namespace VarBytes

/-- A byte string after its size. -/
def encode (bs : Bytes) : Bytes := CompactSize.encode bs.length ++ bs

def decode : Decoder Bytes := do
  let n ← CompactSize.decode
  Decoder.take n .bytes

end VarBytes

/-- The values one after the other, after their number. -/
def encodeList (encode : α → Bytes) (xs : List α) : Bytes :=
  CompactSize.encode xs.length ++ xs.flatMap encode

/-- A number of values and then the values. -/
def decodeList (d : Decoder α) : Decoder (List α) := do
  let n ← CompactSize.decode
  Decoder.replicate d n

end Chainstate
