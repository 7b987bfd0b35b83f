-- SUMMARY: Scripts as byte strings, the opcodes that matter here, and pushes of data.
import Chainstate.Bytes

namespace Chainstate

/-- The program of an output or of an input, as its bytes. -/
structure Script where
  bytes : Bytes
  deriving DecidableEq, Inhabited

/-! ## Opcodes -/

namespace Opcode

def zero : UInt8 := 0x00
def pushData1 : UInt8 := 0x4c
def pushData2 : UInt8 := 0x4d
def pushData4 : UInt8 := 0x4e
def negate1 : UInt8 := 0x4f
def one : UInt8 := 0x51
def sixteen : UInt8 := 0x60
def opIf : UInt8 := 0x63
def opElse : UInt8 := 0x67
def opEndIf : UInt8 := 0x68
def opReturn : UInt8 := 0x6a
def dup : UInt8 := 0x76
def rot : UInt8 := 0x7b
def equal : UInt8 := 0x87
def equalVerify : UInt8 := 0x88
def hash160 : UInt8 := 0xa9
def checkSig : UInt8 := 0xac
def checkSigVerify : UInt8 := 0xad
def checkMultiSig : UInt8 := 0xae
def checkMultiSigVerify : UInt8 := 0xaf
def checkColdStakeVerify : UInt8 := 0xb9

/-- The opcodes that push one of the numbers 1 to 16. -/
def isSmallNumber (op : UInt8) : Bool := one ≤ op && op ≤ sixteen

end Opcode

namespace Script

def empty : Script := ⟨[]⟩

/-- Longer scripts cannot be spent. -/
def maxSpendableSize : Nat := 10000

/-- Outputs with such a script are never stored: the script starts with a return or is too long. -/
def isUnspendable (s : Script) : Bool :=
  s.bytes.head? == some Opcode.opReturn || decide (maxSpendableSize < s.bytes.length)

/-! ## Pushing data -/

/-- What stands before pushed data of a length: the length itself up to 75, and for longer data
an opcode that says how many bytes the length takes. -/
def pushHeader (n : Nat) : Bytes :=
  if n = 0 then [Opcode.zero]
  else if n ≤ 0x4b then [UInt8.ofNat n]
  else if n ≤ 0xff then [Opcode.pushData1, UInt8.ofNat n]
  else if n ≤ 0xffff then Opcode.pushData2 :: Bytes.littleEndian 2 n
  else Opcode.pushData4 :: Bytes.littleEndian 4 n

/-- The shortest script that pushes `data`. -/
def pushData (data : Bytes) : Bytes := pushHeader data.length ++ data

theorem pushData_of_short {data : Bytes} (h : data.length ≤ 0x4b) :
    pushData data = UInt8.ofNat data.length :: data := by
  rw [pushData, pushHeader]
  by_cases hempty : data.length = 0
  · rw [if_pos hempty, hempty]
    rfl
  · rw [if_neg hempty, if_pos h, List.singleton_append]

end Script

end Chainstate
