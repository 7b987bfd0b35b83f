-- SUMMARY: References to transaction outputs, their storage keys and their order.
import Chainstate.Wire.CompactSize

/-!
# Outpoints

An outpoint names an output by the id of its transaction and its index. Outpoints are ordered as
their storage keys are: by the bytes of the id, then by the index, which the key holds most
significant byte first.
-/

namespace Chainstate

structure OutPoint where
  txid : Digest
  index : UInt32
  deriving DecidableEq, Inhabited

namespace OutPoint

/-- What the input of a coinbase refers to. -/
def null : OutPoint := ⟨Digest.zero, 0xffffffff⟩

def isNull (o : OutPoint) : Bool := o == null

/-! ## Storage keys -/

def key (o : OutPoint) : Bytes := o.txid.bytes ++ Bytes.bigEndian 4 o.index.toNat

/-- The outpoint whose key is exactly the given bytes. -/
def ofKey? (bs : Bytes) : Option OutPoint :=
  if bs.length = 36 then do
    let txid ← Digest.ofBytes? (bs.take 32)
    pure ⟨txid, UInt32.ofNat (Bytes.ofBigEndian (bs.drop 32))⟩
  else none

@[simp] theorem length_key (o : OutPoint) : o.key.length = 36 := by
  simp [key, o.txid.length_bytes]

theorem ofKey?_key (o : OutPoint) : ofKey? o.key = some o := by
  have hlen := o.txid.length_bytes
  have htake : o.key.take 32 = o.txid.bytes := by
    rw [key, ← hlen, List.take_left]
  have hdrop : o.key.drop 32 = Bytes.bigEndian 4 o.index.toNat := by
    rw [key, ← hlen, List.drop_left]
  have hindex : UInt32.ofNat (Bytes.ofBigEndian (Bytes.bigEndian 4 o.index.toNat)) = o.index := by
    rw [Bytes.ofBigEndian_bigEndian]
    apply UInt32.toNat_inj.1
    have := o.index.toNat_lt
    simp only [UInt32.toNat_ofNat', Bytes.capacity]
    omega
  simp only [ofKey?, length_key, if_true, htake, hdrop, Digest.ofBytes?_bytes, hindex]
  rfl

theorem key_injective {a b : OutPoint} (h : a.key = b.key) : a = b := by
  have := congrArg ofKey? h
  rwa [ofKey?_key, ofKey?_key, Option.some.injEq] at this

/-! ## Order -/

instance : Ord OutPoint := ⟨compareOn key⟩

instance : Std.TransOrd OutPoint := inferInstanceAs (Std.TransCmp (compareOn key))

instance : Std.LawfulEqOrd OutPoint where
  eq_of_compare {a b} h :=
    key_injective (Std.LawfulEqCmp.eq_of_compare (show compare a.key b.key = .eq from h))

/-! ## Wire form and text -/

def encode (o : OutPoint) : Bytes := o.txid.bytes ++ Encode.u32 o.index

def decode : Decoder OutPoint := do
  let txid ← Decoder.digest
  let index ← Decoder.u32
  pure ⟨txid, index⟩

/-- The id and the index with a colon between them. -/
def text (o : OutPoint) : String := s!"{o.txid.toHex}:{o.index.toNat}"

end OutPoint

end Chainstate
