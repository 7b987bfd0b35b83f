-- SUMMARY: Tips of the coin database and the records that undo a block.
import Chainstate.Coin

namespace Chainstate

/-! ## Tips -/

/-- The block up to which coins have been applied. -/
structure Tip where
  digest : Digest
  height : Nat
  deriving DecidableEq

namespace Tip

def encode (t : Tip) : Bytes := t.digest.bytes ++ Bytes.littleEndian 4 t.height

def decode : Decoder Tip := do
  let digest ← Decoder.digest
  let height ← Decoder.number 4 .u32
  pure ⟨digest, height⟩

def ofBytes (bs : Bytes) : Except DecodeError Tip := Decoder.exactly decode bs

/-- The height and the digest with a hyphen between them. -/
def text (t : Tip) : String := s!"{t.height}-{t.digest.toHex}"

end Tip

/-! ## Undo records -/

/-- How to take a block back: the outpoints it created and the coins it spent or overwrote. -/
structure UndoRecord where
  previousTip : Option Tip
  remove : List OutPoint
  restore : List (OutPoint × Coin)
  deriving DecidableEq

namespace UndoRecord

/-- The record of a block that changed nothing. -/
def ofTip (previous : Tip) : UndoRecord := ⟨some previous, [], []⟩

def encodeTip : Option Tip → Bytes
  | none => [0]
  | some t => 1 :: t.encode

def decodeTip : Decoder (Option Tip) := do
  let marker ← Decoder.u8
  if marker = 0 then pure none
  else if marker = 1 then
    let bs ← Decoder.take 36 .bytes
    match Tip.ofBytes bs with
    | .ok t => pure (some t)
    | .error e => throw e
  else throw .badTipMarker

def decodeKey : Decoder OutPoint := do
  let bs ← Decoder.take 36 .bytes
  match OutPoint.ofKey? bs with
  | some o => pure o
  | none => throw .badOutPoint

def decodeRestored : Decoder (OutPoint × Coin) := do
  let o ← decodeKey
  let c ← Coin.decode
  pure (o, c)

def encode (r : UndoRecord) : Bytes :=
  encodeTip r.previousTip ++ encodeList OutPoint.key r.remove
    ++ encodeList (fun oc => oc.1.key ++ oc.2.encode) r.restore

def decode : Decoder UndoRecord := do
  let previousTip ← decodeTip
  let remove ← decodeList decodeKey
  let restore ← decodeList decodeRestored
  pure ⟨previousTip, remove, restore⟩

def ofBytes (bs : Bytes) : Except DecodeError UndoRecord := Decoder.exactly decode bs

end UndoRecord

end Chainstate
