-- SUMMARY: Blocks: a header, its transactions and the signature of proof-of-stake blocks.
import Chainstate.Block.Header
import Chainstate.Block.MerkleTree
import Chainstate.Transaction

namespace Chainstate

structure Block where
  header : Header
  transactions : List Transaction
  /-- Signature of the block's digest; empty on proof-of-work blocks. -/
  signature : Bytes
  deriving DecidableEq

namespace Block

/-- The header and the transactions, which is what the size limit counts. -/
def encodeUnsigned (b : Block) : Bytes :=
  b.header.encode ++ encodeList Transaction.encode b.transactions

def encode (b : Block) : Bytes := b.encodeUnsigned ++ VarBytes.encode b.signature

def decode : Decoder Block := do
  let header ← Header.decode
  let transactions ← decodeList Transaction.decode
  let signature ← VarBytes.decode
  pure ⟨header, transactions, signature⟩

def ofBytes (bs : Bytes) : Except DecodeError Block := Decoder.exactly decode bs

def digest (b : Block) : Digest := b.header.digest

def baseSize (b : Block) : Nat := b.encodeUnsigned.length

def merkleRoot (b : Block) : MerkleRoot :=
  MerkleTree.root (b.transactions.map Transaction.txid)

/-- The block with the merkle root of its transactions in its header. -/
def withMerkleRoot (b : Block) : Block :=
  { b with header := { b.header with merkleRoot := b.merkleRoot.root } }

/-- The transaction that stakes: the second one, where it has a coinstake's shape. -/
def coinstake? (b : Block) : Option Transaction :=
  match b.transactions with
  | _ :: tx :: _ => if tx.isCoinstake then some tx else none
  | _ => none

def isProofOfStake (b : Block) : Bool := b.coinstake?.isSome

def isProofOfWork (b : Block) : Bool := !b.isProofOfStake

end Block

end Chainstate
