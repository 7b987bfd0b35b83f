-- SUMMARY: The merkle root of a list of ids, and whether the list hides a repetition.
import Chainstate.Digest.Sha256

/-!
# Merkle trees

Each level pairs neighbours and hashes the pairs; a last element without a neighbour is paired
with itself. A list and the same list with its tail repeated can so have the same root, and
`mutated` reports that some level paired two equal neighbours.
-/

namespace Chainstate

namespace MerkleTree

def parent (left right : Digest) : Digest := sha256d (left.bytes ++ right.bytes)

/-- The level above. -/
def pairUp : List Digest → List Digest
  | a :: b :: rest => parent a b :: pairUp rest
  | [a] => [parent a a]
  | [] => []

/-- Whether the level pairs two equal neighbours. -/
def hasEqualPair : List Digest → Bool
  | a :: b :: rest => a == b || hasEqualPair rest
  | _ => false

theorem length_pairUp : ∀ level : List Digest, (pairUp level).length = (level.length + 1) / 2
  | a :: b :: rest => by simp [pairUp, length_pairUp rest]; omega
  | [a] => by simp [pairUp]
  | [] => rfl

end MerkleTree

structure MerkleRoot where
  root : Digest
  /-- Some level paired two equal neighbours. -/
  mutated : Bool
  deriving DecidableEq

namespace MerkleTree

/-- The root above a level. The root of nothing is zero. -/
def root : (level : List Digest) → MerkleRoot
  | [] => ⟨Digest.zero, false⟩
  | [a] => ⟨a, false⟩
  | a :: b :: rest =>
    let above := root (pairUp (a :: b :: rest))
    ⟨above.root, hasEqualPair (a :: b :: rest) || above.mutated⟩
termination_by level => level.length
decreasing_by
  rw [length_pairUp]
  simp only [List.length_cons]
  omega

end MerkleTree

end Chainstate
