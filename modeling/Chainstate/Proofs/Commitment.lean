-- SUMMARY: Commitments: which header names the transactions of an accepted block.
import Chainstate.Chain.Index
import Chainstate.Proofs.Reachable

/-!
# Commitments

A validation reads two headers. Time, target and version are checked of the last header of the
chain, the merkle root of the header that the block carries. Nothing compares the two, so the
transactions of an accepted block are those that the block's own header names
(`Engine.merkleRoot_of_validateBlock`), and the chain names them where it ends in that header.
-/

namespace Chainstate

theorem Block.checkMerkleRoot_ok {b : Block} (h : b.checkMerkleRoot = .ok ()) :
    b.merkleRoot.root = b.header.merkleRoot ∧ b.merkleRoot.mutated = false := by
  unfold checkMerkleRoot at h
  split at h
  · cases h
  · next hroot =>
    split at h
    · cases h
    · next hmutated =>
      exact ⟨Decidable.not_not.1 hroot, Bool.eq_false_iff.2 hmutated⟩

namespace Engine

/-- The transactions of an accepted block have the merkle root that its own header names, and no
repetition is hidden in them. They have the root that the chain names exactly where both headers
name the same. -/
theorem merkleRoot_of_validateBlock {σ : Type} [CoinStore σ] {now : UInt32} {c : Chain} {b : Block}
    {e e' : Engine σ} (hnet : BuiltIn e.network) (h : validateBlock now c b e = .ok () e') :
    b.merkleRoot.root = b.header.merkleRoot ∧ b.merkleRoot.mutated = false
      ∧ (b.merkleRoot.root = c.header.merkleRoot
        ↔ c.header.merkleRoot = b.header.merkleRoot) := by
  have hadmitted := contentsAdmitted_of_validateBlock hnet h
  obtain ⟨hroot, hmutated⟩ := Block.checkMerkleRoot_ok hadmitted.merkleRoot
  refine ⟨hroot, hmutated, ?_⟩
  rw [hroot]
  exact eq_comm

end Engine

namespace Regtest

/-- A header like that of the block which names no transactions. -/
def emptyHeader : Header := { block.header with merkleRoot := Digest.zero, nonce := 1 }

def emptyChain : Chain := .extend emptyHeader Network.regtest.genesisChain

set_option maxRecDepth 10000

theorem merkleRoot_of_validateBlock_block : Engine.BuiltIn (Engine.opened Network.regtest).network
    ∧ Engine.validateBlock 2000000000 chain block (Engine.opened Network.regtest)
      = .ok () (endState
        (Engine.validateBlock 2000000000 chain block (Engine.opened Network.regtest)))
    ∧ block.merkleRoot.root = block.header.merkleRoot ∧ block.merkleRoot.mutated = false
    ∧ (block.merkleRoot.root = chain.header.merkleRoot
      ↔ chain.header.merkleRoot = block.header.merkleRoot) := by
  have hrun := eq_ok_endState (r := Engine.validateBlock 2000000000 chain block
    (Engine.opened Network.regtest)) (by decide +kernel)
  exact ⟨.inl rfl, hrun, Engine.merkleRoot_of_validateBlock (.inl rfl) hrun⟩

/-- The index takes the other header on top of the genesis, and the block is accepted with it,
though it names none of its transactions. -/
theorem merkleRoot_ne_emptyChain :
    (∃ index, (ChainIndex.ofGenesis Network.regtest.genesis.header).insert emptyHeader
      = .ok (emptyChain, index))
    ∧ (∃ e, Engine.validateBlock 2000000000 emptyChain block (Engine.opened Network.regtest)
      = .ok () e)
    ∧ block.merkleRoot.root ≠ emptyChain.header.merkleRoot := by
  refine ⟨?_, ⟨_, eq_ok_endState (by decide +kernel)⟩, by decide +kernel⟩
  have hnew : (ChainIndex.ofGenesis Network.regtest.genesis.header).find? emptyHeader.digest
      = none := by
    rw [ChainIndex.find?, ChainIndex.ofGenesis, Table.getElem?_insert, if_neg (by decide +kernel)]
    rfl
  have hprevious : (Chain.genesis Network.regtest.genesis.header).digest
      = emptyHeader.previous := rfl
  have hparent : (ChainIndex.ofGenesis Network.regtest.genesis.header).find? emptyHeader.previous
      = some Network.regtest.genesisChain := by
    rw [ChainIndex.find?, ChainIndex.ofGenesis, Table.getElem?_insert, if_pos hprevious]
    rfl
  unfold ChainIndex.insert
  rw [hnew]
  simp only [hparent]
  exact ⟨_, rfl⟩

end Regtest

end Chainstate
