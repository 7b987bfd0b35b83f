-- SUMMARY: The compact form of targets: an exponent byte and a three-byte mantissa.
import Chainstate.Bytes.Hex

/-!
# Compact targets

A target is written in 32 bits as an exponent byte and a mantissa of three bytes whose top bit is
a sign. The value is the mantissa's magnitude times `256 ^ (exponent - 3)`, rounded down.
-/

namespace Chainstate

structure CompactTarget where
  bits : UInt32
  deriving DecidableEq, Inhabited

inductive CompactError where
  | negative (bits : UInt32)
  | overflow (bits : UInt32)
  deriving DecidableEq

def CompactError.message : CompactError → String
  | .negative bits => s!"compact target 0x{Hex.padded 8 bits.toNat} is negative"
  | .overflow bits => s!"compact target 0x{Hex.padded 8 bits.toNat} overflows 256 bits"

namespace CompactTarget

def exponent (c : CompactTarget) : Nat := c.bits.toNat >>> 24

def magnitude (c : CompactTarget) : Nat := c.bits.toNat % 0x800000

def signBit (c : CompactTarget) : Bool := c.bits.toNat.testBit 23

/-- The encoded target. A magnitude of zero is zero whatever the sign and the exponent. -/
def decode (c : CompactTarget) : Except CompactError Nat :=
  let size := c.exponent
  let word := c.magnitude
  if word ≠ 0 ∧ c.signBit then .error (.negative c.bits)
  else if word ≠ 0 ∧ (34 < size ∨ (0xff < word ∧ 33 < size) ∨ (0xffff < word ∧ 32 < size)) then
    .error (.overflow c.bits)
  else if size ≤ 3 then .ok (word >>> (8 * (3 - size)))
  else .ok (word <<< (8 * (size - 3)))

/-- The number of bytes of a natural number. -/
def byteLength (n : Nat) : Nat := if n = 0 then 0 else Nat.log2 n / 8 + 1

/-- The compact form that keeps the three leading bytes of a target; one byte less where the
leading bit would be read as a sign. -/
def ofTarget (target : Nat) : CompactTarget :=
  let size := byteLength target
  let word := if size ≤ 3 then target <<< (8 * (3 - size)) else target >>> (8 * (size - 3))
  if word < 0x800000 then ⟨UInt32.ofNat (word + size <<< 24)⟩
  else ⟨UInt32.ofNat (word / 256 + (size + 1) <<< 24)⟩

/-- Eight hexadecimal digits. -/
def text (c : CompactTarget) : String := Hex.padded 8 c.bits.toNat

end CompactTarget

end Chainstate
