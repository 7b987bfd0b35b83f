-- SUMMARY: Counting the signature operations of scripts, and of the redeem scripts they hide.
import Chainstate.Script.Instruction

/-!
# Signature operations

A signature check counts one. A check against several keys counts the most keys there can be,
unless the count is `accurate` and the number of keys was pushed just before as 1 to 16.
Counting stops at a truncated push.
-/

namespace Chainstate

namespace Instruction

def maxKeysPerMultiSig : Nat := 20

/-- The weight of an opcode that comes after the opcode `last`, if it comes after one. -/
def sigOpWeight (accurate : Bool) (last : Option UInt8) (code : UInt8) : Nat :=
  if code = Opcode.checkSig ∨ code = Opcode.checkSigVerify then 1
  else if code = Opcode.checkMultiSig ∨ code = Opcode.checkMultiSigVerify then
    match last with
    | some n =>
      if accurate && Opcode.isSmallNumber n then n.toNat - Opcode.one.toNat + 1
      else maxKeysPerMultiSig
    | none => maxKeysPerMultiSig
  else 0

def sigOps (accurate : Bool) : (last : Option UInt8) → List Instruction → Nat
  | _, [] => 0
  | _, truncated :: _ => 0
  | _, push _ :: rest => sigOps accurate none rest
  | last, op code :: rest => sigOpWeight accurate last code + sigOps accurate (some code) rest

end Instruction

namespace Script

def sigOps (s : Script) (accurate : Bool) : Nat := Instruction.sigOps accurate none s.instructions

/-- The hash of a redeem script between `OP_HASH160` and `OP_EQUAL`. -/
def isPayToScriptHash (s : Script) : Bool :=
  s.bytes.length == 23 && s.bytes.take 2 == [Opcode.hash160, 0x14]
    && s.bytes.drop 22 == [Opcode.equal]

/-- The last data pushed by a script that only pushes; a number pushed after it takes its place. -/
def lastPush : (redeem : Bytes) → List Instruction → Option Bytes
  | redeem, [] => some redeem
  | _, .push data :: rest => lastPush data rest
  | _, .op code :: rest =>
    if code == Opcode.negate1 || Opcode.isSmallNumber code then lastPush [] rest else none
  | _, .truncated :: _ => none

/-- The signature operations that spending an output with script `s` by `input` adds. -/
def spendingSigOps (s input : Script) : Nat :=
  if !s.isPayToScriptHash then s.sigOps true
  else match lastPush [] input.instructions with
    | some redeem => sigOps ⟨redeem⟩ true
    | none => 0

/-! ## Laws -/

theorem sigOps_empty (accurate : Bool) : sigOps ⟨[]⟩ accurate = 0 := by
  simp [sigOps, instructions, Instruction.all, Instruction.sigOps]

end Script

end Chainstate
