-- SUMMARY: The genesis blocks of the built-in networks.
import Chainstate.Block
import Chainstate.Params
import Chainstate.Script.Template

namespace Chainstate

namespace Genesis

def publicKey : Bytes :=
  [0x04, 0x67, 0x8a, 0xfd, 0xb0, 0xfe, 0x55, 0x48, 0x27, 0x19, 0x67, 0xf1, 0xa6, 0x71, 0x30, 0xb7,
   0x10, 0x5c, 0xd6, 0xa8, 0x28, 0xe0, 0x39, 0x09, 0xa6, 0x79, 0x62, 0xe0, 0xea, 0x1f, 0x61, 0xde,
   0xb6, 0x49, 0xf6, 0xbc, 0x3f, 0x4c, 0xef, 0x38, 0xc4, 0xf3, 0x55, 0x04, 0xe5, 0x1e, 0xc1, 0x12,
   0xde, 0x5c, 0x38, 0x4d, 0xf7, 0xba, 0x0b, 0x8d, 0x57, 0x8a, 0x4c, 0x70, 0x2b, 0x6b, 0xf1, 0x1d,
   0x5f]

def workMessage : String := "The Times 03/Jan/2009 Chancellor on brink of second bailout for banks"

def stakeMessage : String :=
  "http://www.theonion.com/article/olympics-head-priestess-slits-throat-official-rio--53466"

/-- The bytes of a text of ASCII characters. -/
def ascii (s : String) : Bytes := s.toList.map fun c => UInt8.ofNat c.toNat

/-- The script of a genesis coinbase: the first bits, the number four and a message. -/
def coinbaseScript (message : String) : Script :=
  ⟨Script.pushData (Bytes.littleEndian 4 0x1d00ffff) ++ Script.pushData [4]
    ++ Script.pushData (ascii message)⟩

/-- A block without a parent whose only transaction creates `output`. -/
def block (message : String) (output : TxOut) (time nonce bits : UInt32) : Block :=
  let coinbase : Transaction :=
    { version := 1
      inputs := [⟨OutPoint.null, coinbaseScript message, TxIn.finalSequence⟩]
      outputs := [output]
      lockTime := 0 }
  let header : Header :=
    { version := 1, previous := Digest.zero, merkleRoot := Digest.zero, time, bits := ⟨bits⟩, nonce }
  Block.withMerkleRoot ⟨header, [coinbase], []⟩

def work (time nonce bits : UInt32) : Block :=
  block workMessage ⟨Int64.ofInt (50 * coinUnits), Script.payToKey publicKey⟩ time nonce bits

def stake (time nonce bits : UInt32) : Block :=
  block stakeMessage ⟨0, Script.empty⟩ time nonce bits

end Genesis

end Chainstate
