-- SUMMARY: Readers of byte strings, with the causes for which a reading fails.
import Chainstate.Digest

/-!
# Reading bytes

A `Decoder` takes bytes from the front of what is left. A reading that fails stops where its last
complete part ended: a number that does not fit in the remaining bytes consumes none of them.
`Decoder.exactly` reads a whole byte string and refuses left-over bytes.
-/

namespace Chainstate

/-! ## Causes of failure -/

/-- What was being read when the bytes ran out. -/
inductive Field where
  | u8 | u16 | u32 | i32 | u64 | i64 | hash | bytes
  deriving DecidableEq, Repr

def Field.name : Field → String
  | .u8 => "u8"
  | .u16 => "u16le"
  | .u32 => "u32le"
  | .i32 => "i32le"
  | .u64 => "u64le"
  | .i64 => "i64le"
  | .hash => "hash"
  | .bytes => "bytes"

inductive DecodeError where
  | endOfInput (field : Field)
  | trailingBytes
  | nonMinimalSize
  | sizeTooLarge
  | unknownCoinFlags
  | badTipMarker
  | badOutPoint
  | unknownStakeFlags
  | badPrevoutMarker
  deriving DecidableEq, Repr

namespace DecodeError

def detail : DecodeError → String
  | endOfInput field => s!"unexpected EOF ({field.name})"
  | trailingBytes => "trailing bytes"
  | nonMinimalSize => "non-minimal CompactSize"
  | sizeTooLarge => "size too large"
  | unknownCoinFlags => "coins: unknown flags"
  | badTipMarker => "rewind: bad tip marker"
  | badOutPoint => "rewind: bad outpoint"
  | unknownStakeFlags => "stake: unknown flags"
  | badPrevoutMarker => "stake: bad prevout marker"

/-- The rejection code that peers see for every malformed encoding. -/
def code : String := "bad-encoding"

def message (e : DecodeError) : String := s!"{code}: {e.detail}"

end DecodeError

/-! ## Decoders -/

abbrev Decoder (α : Type) := EStateM DecodeError Bytes α

namespace Decoder

/-- The next `n` bytes. -/
def take (n : Nat) (field : Field) : Decoder Bytes := fun bs =>
  if (bs.take n).length = n then .ok (bs.take n) (bs.drop n) else .error (.endOfInput field) bs

/-- The next `n` bytes as a number, least significant byte first. -/
def number (n : Nat) (field : Field) : Decoder Nat := do
  let bs ← take n field
  pure (Bytes.ofLittleEndian bs)

def u8 : Decoder UInt8 := do pure (UInt8.ofNat (← number 1 .u8))

def u16 : Decoder UInt16 := do pure (UInt16.ofNat (← number 2 .u16))

def u32 : Decoder UInt32 := do pure (UInt32.ofNat (← number 4 .u32))

def i32 : Decoder Int32 := do pure (UInt32.ofNat (← number 4 .i32)).toInt32

def u64 : Decoder UInt64 := do pure (UInt64.ofNat (← number 8 .u64))

def i64 : Decoder Int64 := do pure (UInt64.ofNat (← number 8 .i64)).toInt64

def digest : Decoder Digest := fun bs =>
  if h : (bs.take 32).length = 32 then .ok ⟨bs.take 32, h⟩ (bs.drop 32)
  else .error (.endOfInput .hash) bs

/-- Succeeds when no bytes are left. -/
def endOfInput : Decoder Unit := fun bs =>
  if bs.isEmpty then .ok () bs else .error .trailingBytes bs

/-- `n` values, one after the other. -/
def replicate (d : Decoder α) : Nat → Decoder (List α)
  | 0 => pure []
  | n + 1 => do
    let a ← d
    let as ← replicate d n
    pure (a :: as)

/-- Reads a value that takes up the whole byte string. -/
def exactly (d : Decoder α) (bs : Bytes) : Except DecodeError α :=
  match (do let a ← d; endOfInput; pure a : Decoder α) bs with
  | .ok a _ => .ok a
  | .error e _ => .error e

end Decoder

/-! ## Encodings of words -/

namespace Encode

def u32 (x : UInt32) : Bytes := Bytes.littleEndian 4 x.toNat

def i32 (x : Int32) : Bytes := Bytes.littleEndian 4 x.toUInt32.toNat

def i64 (x : Int64) : Bytes := Bytes.littleEndian 8 x.toUInt64.toNat

end Encode

end Chainstate
