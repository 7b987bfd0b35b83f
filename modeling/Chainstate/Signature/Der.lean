-- SUMMARY: Pairs of integers in distinguished encoding, as signatures are written.
import Chainstate.Bytes

/-!
# Distinguished encoding of signatures

A signature is a sequence of two positive integers. An integer is written with as few bytes as
possible, most significant first, and with a zero byte in front where its top bit is set. Nothing
else is accepted.
-/

namespace Chainstate

namespace Der

def sequenceTag : UInt8 := 0x30

def integerTag : UInt8 := 0x02

/-- The longest magnitude of an integer. -/
def maxMagnitude : Nat := 32

/-! ## Writing -/

/-- The content of an integer, from its bytes of fixed width. -/
def integerContent (n : Nat) : Bytes :=
  let digits := (Bytes.bigEndian maxMagnitude n).dropWhile (· == 0)
  match digits with
  | [] => [0]
  | b :: bs => if 0x80 ≤ b then 0 :: b :: bs else b :: bs

def encodeInteger (n : Nat) : Bytes :=
  let content := integerContent n
  integerTag :: UInt8.ofNat content.length :: content

def encodePair (r s : Nat) : Bytes :=
  let content := encodeInteger r ++ encodeInteger s
  sequenceTag :: UInt8.ofNat content.length :: content

/-! ## Reading -/

/-- The magnitude that stands as the content of an integer. -/
def magnitude? : Bytes → Option Bytes
  | [] => none
  | [b] => if 0x80 ≤ b then none else some [b]
  | b :: c :: bs =>
    if 0x80 ≤ b then none
    else if b == 0 then if c < 0x80 then none else some (c :: bs)
    else some (b :: c :: bs)

/-- An integer at the front, and what stands after it. -/
def decodeInteger? : Bytes → Option (Nat × Bytes)
  | tag :: length :: rest =>
    if tag == integerTag && length < 0x80 && length.toNat ≤ rest.length then do
      let m ← magnitude? (rest.take length.toNat)
      if m.length ≤ maxMagnitude then
        some (Bytes.ofBigEndian m, rest.drop length.toNat)
      else none
    else none
  | _ => none

/-- The two integers of a sequence that takes up all bytes. -/
def decodePair? : Bytes → Option (Nat × Nat)
  | tag :: length :: rest =>
    if tag == sequenceTag && length < 0x80 && length.toNat == rest.length then do
      let (r, rest) ← decodeInteger? rest
      let (s, rest) ← decodeInteger? rest
      if rest.isEmpty then some (r, s) else none
    else none
  | _ => none

end Der

end Chainstate
