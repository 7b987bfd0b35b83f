-- SUMMARY: Hexadecimal text of byte strings and of numbers.
import Chainstate.Bytes

/-!
# Hexadecimal text

Byte strings are written with two lower-case digits per byte, and read with digits of either case.
-/

namespace Chainstate

namespace Hex

/-- The lower-case digit of a number below sixteen. -/
def digit (n : Nat) : Char := if n < 10 then Char.ofNat (48 + n) else Char.ofNat (87 + n)

def digitValue? (c : Char) : Option Nat :=
  if '0' ≤ c ∧ c ≤ '9' then some (c.toNat - 48)
  else if 'a' ≤ c ∧ c ≤ 'f' then some (c.toNat - 87)
  else if 'A' ≤ c ∧ c ≤ 'F' then some (c.toNat - 55)
  else none

/-- Two digits per byte, in the order of the bytes. -/
def encode (bs : Bytes) : String :=
  String.ofList (bs.flatMap fun b => [digit (b.toNat / 16), digit (b.toNat % 16)])

def decodeChars? : List Char → Option Bytes
  | [] => some []
  | [_] => none
  | hi :: lo :: rest => do
    let h ← digitValue? hi
    let l ← digitValue? lo
    let bs ← decodeChars? rest
    pure (UInt8.ofNat (16 * h + l) :: bs)

/-- Reads pairs of digits; an odd number of digits or any other character is refused. -/
def decode? (s : String) : Option Bytes := decodeChars? s.toList

/-- The digits of `n` without leading zeros, at least one. -/
def ofNat (n : Nat) : String := String.ofList (Nat.toDigits 16 n)

/-- The digits of `n`, filled up with zeros on the left to `width`. -/
def padded (width n : Nat) : String :=
  let ds := Nat.toDigits 16 n
  String.ofList (List.replicate (width - ds.length) '0' ++ ds)

/-- The number written with digits of either case; the empty text and other characters are refused. -/
def toNat? (s : String) : Option Nat :=
  if s.isEmpty then none
  else s.toList.foldl (fun acc c => do pure (16 * (← acc) + (← digitValue? c))) (some 0)

end Hex

end Chainstate
