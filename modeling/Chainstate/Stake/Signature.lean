-- SUMMARY: Who must sign a proof-of-stake block, and whether the block is signed.
import Chainstate.Block
import Chainstate.Script.Template
import Chainstate.Signature.Ecdsa

namespace Chainstate

namespace Block

/-- The key that must sign: the one that the second output of the second transaction pays, or else
the first that one of its outputs carries. -/
def signingKey? (b : Block) : Option Bytes :=
  match b.transactions with
  | _ :: tx :: _ =>
    match tx.outputs[1]?.bind fun o => o.script.paidKey? with
    | some key => some key
    | none => tx.outputs.findSome? fun o => o.script.carriedKey?
  | _ => none

/-- Proof-of-work blocks have no signature; the others one of their digest by the signing key. -/
def isSigned (b : Block) : Bool :=
  if b.isProofOfWork then b.signature.isEmpty
  else
    match b.signingKey?.bind Secp256k1.ofKey?, Signature.ofBytes? b.signature with
    | some key, some sig => sig.verify key b.digest
    | _, _ => false

/-- The block with a signature of its digest. -/
def sign? (b : Block) (secret : Bytes) : Option Block := do
  let sig ← Signature.sign? secret b.digest
  pure { b with signature := sig.encode }

end Block

end Chainstate
