-- SUMMARY: Integers as script numbers and the shortest scripts that push them.
import Chainstate.Script

/-!
# Script numbers

An integer is written as its magnitude, least significant byte first, with the sign in the top bit
of the last byte; zero is the empty string. A block's height stands in this form at the start of
its coinbase.
-/

namespace Chainstate

namespace ScriptNumber

/-- The bytes of a natural number without trailing zeros, least significant first. -/
def magnitude (n : Nat) : Bytes :=
  if n = 0 then [] else UInt8.ofNat n :: magnitude (n / 256)
termination_by n
decreasing_by omega

/-- Puts the sign into the top bit of the last byte, or into a byte of its own where that bit is
taken. -/
def withSign (negative : Bool) : Bytes → Bytes
  | [] => []
  | [b] =>
    if 0x80 ≤ b then [b, if negative then 0x80 else 0]
    else [if negative then b ||| 0x80 else b]
  | b :: bs => b :: withSign negative bs

def encode (n : Int) : Bytes := withSign (decide (n < 0)) (magnitude n.natAbs)

/-- The integer that a byte string stands for. -/
def decode : Bytes → Int
  | [] => 0
  | [b] => if 0x80 ≤ b then -((b &&& 0x7f).toNat : Int) else b.toNat
  | b :: bs =>
    let high := decode bs
    if 0x80 ≤ bs.getLastD 0 then 256 * high - b.toNat else 256 * high + b.toNat

/-- The shortest script that pushes `n`: one opcode for -1 and for 0 to 16. -/
def push (n : Int) : Bytes :=
  if n = 0 then [Opcode.zero]
  else if 1 ≤ n ∧ n ≤ 16 then [UInt8.ofNat (Opcode.one.toNat + n.toNat - 1)]
  else if n = -1 then [Opcode.negate1]
  else Script.pushData (encode n)

end ScriptNumber

end Chainstate
