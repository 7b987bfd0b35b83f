-- SUMMARY: Transactions, their wire form, their special shapes and their lock times.
import Chainstate.Digest.Sha256
import Chainstate.Script.SigOps
import Chainstate.Total
import Chainstate.Transaction.OutPoint

namespace Chainstate

/-! ## Inputs and outputs -/

structure TxIn where
  prevout : OutPoint
  script : Script
  sequence : UInt32
  deriving DecidableEq

namespace TxIn

/-- An input with this sequence number does not hold its transaction back. -/
def finalSequence : UInt32 := 0xffffffff

def encode (i : TxIn) : Bytes :=
  i.prevout.encode ++ VarBytes.encode i.script.bytes ++ Encode.u32 i.sequence

def decode : Decoder TxIn := do
  let prevout ← OutPoint.decode
  let script ← VarBytes.decode
  let sequence ← Decoder.u32
  pure ⟨prevout, ⟨script⟩, sequence⟩

end TxIn

structure TxOut where
  value : Int64
  script : Script
  deriving DecidableEq, Inhabited

namespace TxOut

/-- No value and no script: the first output of a coinstake and of its block's coinbase. -/
def isEmpty (o : TxOut) : Bool := o.value == 0 && o.script.bytes.isEmpty

/-- The value as an integer. -/
def amount (o : TxOut) : Int := o.value.toInt

def encode (o : TxOut) : Bytes := Encode.i64 o.value ++ VarBytes.encode o.script.bytes

def decode : Decoder TxOut := do
  let value ← Decoder.i64
  let script ← VarBytes.decode
  pure ⟨value, ⟨script⟩⟩

end TxOut

/-! ## Transactions -/

structure Transaction where
  version : Int32
  inputs : List TxIn
  outputs : List TxOut
  lockTime : UInt32
  deriving DecidableEq

namespace Transaction

def encode (tx : Transaction) : Bytes :=
  Encode.i32 tx.version ++ encodeList TxIn.encode tx.inputs
    ++ encodeList TxOut.encode tx.outputs ++ Encode.u32 tx.lockTime

def decode : Decoder Transaction := do
  let version ← Decoder.i32
  let inputs ← decodeList TxIn.decode
  let outputs ← decodeList TxOut.decode
  let lockTime ← Decoder.u32
  pure ⟨version, inputs, outputs, lockTime⟩

def ofBytes (bs : Bytes) : Except DecodeError Transaction := Decoder.exactly decode bs

def txid (tx : Transaction) : Digest := sha256d tx.encode

def size (tx : Transaction) : Nat := tx.encode.length

/-- The sum of the output values. -/
def totalOut (tx : Transaction) : Int := totalAmount (tx.outputs.map TxOut.amount)

/-- The sum of the output values in words. Outputs that have been checked one by one against a
largest amount that leaves room for it are worth the same in words. -/
def totalOutWord (tx : Transaction) : Int64 := totalWord (tx.outputs.map TxOut.value)

theorem toInt_totalOutWord {tx : Transaction} (h : FitsWord tx.totalOut) :
    tx.totalOutWord.toInt = tx.totalOut := by
  have hout : (tx.outputs.map TxOut.value).map Int64.toInt = tx.outputs.map TxOut.amount :=
    List.map_map
  unfold totalOut at h ⊢
  rw [← hout] at h ⊢
  exact toInt_totalWord_of_fits h

/-- The outpoints of the outputs, in order. -/
def outPoints (tx : Transaction) : List OutPoint :=
  let txid := tx.txid
  (List.range tx.outputs.length).map fun n => ⟨txid, UInt32.ofNat n⟩

/-! ## Shapes -/

/-- A single input that refers to nothing: the transaction that creates a block's reward. -/
def isCoinbase (tx : Transaction) : Bool :=
  match tx.inputs with
  | [i] => i.prevout.isNull
  | _ => false

/-- Spends a real output first and starts its two or more outputs with an empty one. -/
def isCoinstake (tx : Transaction) : Bool :=
  match tx.inputs, tx.outputs with
  | i :: _, o :: _ :: _ => !i.prevout.isNull && o.isEmpty
  | _, _ => false

/-- The signature operations written in the transaction itself. -/
def sigOps (tx : Transaction) : Nat :=
  totalCount (tx.inputs.map fun i => i.script.sigOps false)
    + totalCount (tx.outputs.map fun o => o.script.sigOps false)

/-! ## Lock times -/

/-- Lock times below this are heights, the others are times. -/
def lockTimeThreshold : UInt32 := 500000000

/-- Whether the transaction may stand in a block of this height and time: its lock time has
passed, or every input gives it up. -/
def isFinal (tx : Transaction) (height : Nat) (time : Int) : Bool :=
  let reached : Int := if tx.lockTime < lockTimeThreshold then height else time
  tx.lockTime == 0 || decide ((tx.lockTime.toNat : Int) < reached)
    || tx.inputs.all fun i => i.sequence == TxIn.finalSequence

end Transaction

end Chainstate
