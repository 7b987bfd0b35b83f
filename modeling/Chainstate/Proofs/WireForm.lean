-- SUMMARY: The wire form of transactions, headers and blocks is canonical and self-delimiting.
import Chainstate.Block
import Chainstate.Proofs.Codec

/-!
# The wire form

One equivalence for each decoder of the wire form, from the parts to the whole. A value is sized
where its lists, its scripts and its signature are within the limit of a compact size; every value
that is read is sized, so the limit of the reader is the only one.
-/

namespace Chainstate

/-! ## Inputs and outputs -/

theorem OutPoint.decode_ok {bs rest : Bytes} {o : OutPoint} :
    OutPoint.decode bs = .ok o rest ↔ bs = o.encode ++ rest := by
  simp only [decode, step_bind_ok, Decoder.digest_ok, Decoder.u32_ok, step_pure_ok]
  constructor
  · rintro ⟨txid, _, rfl, index, _, rfl, rfl, rfl⟩
    simp [encode]
  · rintro rfl
    exact ⟨o.txid, _, by simp [encode], o.index, rest, rfl, rfl, rfl⟩

/-- The script of an input is within the limit. -/
def TxIn.Sized (i : TxIn) : Prop := i.script.bytes.length ≤ CompactSize.maxSize

theorem TxIn.decode_inverts : TxIn.decode.Inverts TxIn.encode TxIn.Sized := by
  intro bs i rest
  simp only [decode, step_bind_ok, OutPoint.decode_ok, VarBytes.decode_ok, Decoder.u32_ok,
    step_pure_ok]
  constructor
  · rintro ⟨prevout, _, rfl, script, _, ⟨hscript, rfl⟩, sequence, _, rfl, rfl, rfl⟩
    exact ⟨hscript, by simp [encode]⟩
  · rintro ⟨hscript, rfl⟩
    exact ⟨i.prevout, _, by simp [encode], i.script.bytes, _, ⟨hscript, rfl⟩, i.sequence, rest,
      rfl, rfl, rfl⟩

/-- The script of an output is within the limit. -/
def TxOut.Sized (o : TxOut) : Prop := o.script.bytes.length ≤ CompactSize.maxSize

theorem TxOut.decode_inverts : TxOut.decode.Inverts TxOut.encode TxOut.Sized := by
  intro bs o rest
  simp only [decode, step_bind_ok, Decoder.i64_ok, VarBytes.decode_ok, step_pure_ok]
  constructor
  · rintro ⟨value, _, rfl, script, _, ⟨hscript, rfl⟩, rfl, rfl⟩
    exact ⟨hscript, by simp [encode]⟩
  · rintro ⟨hscript, rfl⟩
    exact ⟨o.value, _, by simp [encode], o.script.bytes, rest, ⟨hscript, rfl⟩, rfl, rfl⟩

/-! ## Transactions -/

/-- The lists and the scripts of a transaction are within the limit. -/
structure Transaction.Sized (tx : Transaction) : Prop where
  inputs : SizedList TxIn.Sized tx.inputs
  outputs : SizedList TxOut.Sized tx.outputs

theorem Transaction.decode_inverts :
    Transaction.decode.Inverts Transaction.encode Transaction.Sized := by
  intro bs tx rest
  simp only [decode, step_bind_ok, Decoder.i32_ok, decodeList_ok TxIn.decode_inverts,
    decodeList_ok TxOut.decode_inverts, Decoder.u32_ok, step_pure_ok]
  constructor
  · rintro ⟨version, _, rfl, inputs, _, ⟨hinputs, rfl⟩, outputs, _, ⟨houtputs, rfl⟩, lockTime, _,
      rfl, rfl, rfl⟩
    exact ⟨⟨hinputs, houtputs⟩, by simp [encode]⟩
  · rintro ⟨⟨hinputs, houtputs⟩, rfl⟩
    exact ⟨tx.version, _, by simp [encode], tx.inputs, _, ⟨hinputs, rfl⟩, tx.outputs, _,
      ⟨houtputs, rfl⟩, tx.lockTime, rest, rfl, rfl, rfl⟩

/-! ## Headers and blocks -/

theorem Header.decode_ok {bs rest : Bytes} {h : Header} :
    Header.decode bs = .ok h rest ↔ bs = h.encode ++ rest := by
  simp only [decode, step_bind_ok, Decoder.i32_ok, Decoder.digest_ok, Decoder.u32_ok, step_pure_ok]
  constructor
  · rintro ⟨version, _, rfl, previous, _, rfl, merkleRoot, _, rfl, time, _, rfl, bits, _, rfl,
      nonce, _, rfl, rfl, rfl⟩
    simp [encode]
  · rintro rfl
    exact ⟨h.version, _, by simp [encode], h.previous, _, rfl, h.merkleRoot, _, rfl, h.time, _,
      rfl, h.bits.bits, _, rfl, h.nonce, rest, rfl, rfl, rfl⟩

theorem Header.decode_inverts : Header.decode.Inverts Header.encode fun _ => True := by
  intro bs h rest
  simp [Header.decode_ok]

/-- The transactions of a block and its signature are within the limit. -/
structure Block.Sized (b : Block) : Prop where
  transactions : SizedList Transaction.Sized b.transactions
  signature : b.signature.length ≤ CompactSize.maxSize

theorem Block.decode_inverts : Block.decode.Inverts Block.encode Block.Sized := by
  intro bs b rest
  simp only [decode, step_bind_ok, Header.decode_ok, decodeList_ok Transaction.decode_inverts,
    VarBytes.decode_ok, step_pure_ok]
  constructor
  · rintro ⟨header, _, rfl, transactions, _, ⟨htxs, rfl⟩, signature, _, ⟨hsig, rfl⟩, rfl, rfl⟩
    exact ⟨⟨htxs, hsig⟩, by simp [encode, encodeUnsigned]⟩
  · rintro ⟨⟨htxs, hsig⟩, rfl⟩
    exact ⟨b.header, _, by simp [encode, encodeUnsigned], b.transactions, _, ⟨htxs, rfl⟩,
      b.signature, rest, ⟨hsig, rfl⟩, rfl, rfl⟩

/-- Transactions, headers and blocks are read back from their encodings, from nothing shorter and
from nothing longer, and every byte string that is read is the encoding of what is read. -/
theorem wireForms_canonical :
    Canonical Transaction.ofBytes Transaction.encode Transaction.Sized ∧
      Canonical Header.ofBytes Header.encode (fun _ => True) ∧
      Canonical Block.ofBytes Block.encode Block.Sized :=
  ⟨Transaction.decode_inverts.canonical, Header.decode_inverts.canonical,
    Block.decode_inverts.canonical⟩

end Chainstate
