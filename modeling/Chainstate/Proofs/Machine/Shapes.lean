-- SUMMARY: Shapes of transactions and blocks on a machine: what a shape is read from is there.
import Chainstate.Proofs.Connect
import Chainstate.Proofs.Machine.Words

/-!
# Shapes on a machine

A machine reads the shape of a transaction from its first input and its first output, and the kind
of a block from its second transaction. It counts before it reads, so every position is in range,
whatever the transaction or the block. The stake record of a block is read from the first input of
its coinstake, and nothing counts the inputs again: a coinstake has one by its shape.
-/

namespace Chainstate

namespace Machine

variable {ε : Type}

/-! ## Transactions -/

/-- A single input that refers to nothing. -/
def isCoinbase (tx : Transaction) : Checked ε Bool :=
  if tx.inputs.length ≠ 1 then .ok false
  else do
    let i ← element tx.inputs 0
    .ok i.prevout.isNull

theorem isCoinbase_eq (tx : Transaction) :
    (isCoinbase tx : Checked ε _) = .ok tx.isCoinbase := by
  rw [isCoinbase, Transaction.isCoinbase]
  rcases tx.inputs with _ | ⟨i, _ | ⟨second, rest⟩⟩
  · rfl
  · rfl
  · rw [if_pos (by simp)]

/-- Spends a real output first and starts its two or more outputs with an empty one. -/
def isCoinstake (tx : Transaction) : Checked ε Bool :=
  if tx.inputs.isEmpty then .ok false
  else do
    let i ← element tx.inputs 0
    if i.prevout.isNull || tx.outputs.length < 2 then .ok false
    else
      let o ← element tx.outputs 0
      .ok o.isEmpty

theorem isCoinstake_eq (tx : Transaction) :
    (isCoinstake tx : Checked ε _) = .ok tx.isCoinstake := by
  rw [isCoinstake, Transaction.isCoinstake]
  rcases tx.inputs with _ | ⟨i, rest⟩
  · rfl
  rw [if_neg (by simp), element_ok (show (i :: rest)[0]? = some i from rfl), checked_ok_bind]
  rcases tx.outputs with _ | ⟨o, _ | ⟨second, outs⟩⟩
  · rw [if_pos (by simp)]
  · rw [if_pos (by simp)]
  · have hmany : ¬(o :: second :: outs).length < 2 := by simp
    rw [element_ok (show (o :: second :: outs)[0]? = some o from rfl), checked_ok_bind,
      decide_eq_false hmany, Bool.or_false]
    dsimp only
    cases i.prevout.isNull with
    | true => rfl
    | false => rfl

/-! ## Blocks -/

/-- The second transaction is a coinstake. -/
def isProofOfStake (b : Block) : Checked ε Bool :=
  if b.transactions.length ≤ 1 then .ok false
  else do
    let tx ← element b.transactions 1
    isCoinstake tx

theorem isProofOfStake_eq (b : Block) :
    (isProofOfStake b : Checked ε _) = .ok b.isProofOfStake := by
  rw [isProofOfStake, Block.isProofOfStake, Block.coinstake?]
  rcases b.transactions with _ | ⟨first, _ | ⟨tx, rest⟩⟩
  · rfl
  · rfl
  · rw [if_neg (by simp), element_ok (show (first :: tx :: rest)[1]? = some tx from rfl),
      checked_ok_bind, isCoinstake_eq]
    dsimp only
    cases tx.isCoinstake with
    | true => rfl
    | false => rfl

/-- The coinstake of a block that has one. -/
theorem element_coinstake {b : Block} {tx : Transaction} (h : b.coinstake? = some tx) :
    (element b.transactions 1 : Checked ε _) = .ok tx := by
  obtain ⟨coinbase, rest, htxs, -⟩ := Block.coinstake?_eq_some h
  exact element_ok (htxs ▸ rfl)

/-- What a coinstake stakes. -/
theorem element_staked {b : Block} {tx : Transaction} (h : b.coinstake? = some tx) :
    ∃ i, (element tx.inputs 0 : Checked ε _) = .ok i
      ∧ (StakeRecord.ofBlock b).prevout = some i.prevout := by
  obtain ⟨-, -, -, hcoinstake⟩ := Block.coinstake?_eq_some h
  obtain ⟨i, hi⟩ := Transaction.head?_inputs_of_isCoinstake hcoinstake
  exact ⟨i, element_ok (List.head?_eq_getElem? ▸ hi), by simp [StakeRecord.ofBlock, h, hi]⟩

/-- The record of a block before its modifier and proof are known. -/
def stakeRecord (b : Block) : Checked ε StakeRecord := do
  let stake ← isProofOfStake b
  let prevout ←
    if stake then do
      let coinstake ← element b.transactions 1
      let first ← element coinstake.inputs 0
      .ok (some first.prevout)
    else .ok none
  .ok { StakeRecord.initial with
    flags := ⟨stake, StakeRecord.entropyBit b.digest, false⟩, time := b.header.time, prevout }

theorem stakeRecord_eq (b : Block) :
    (stakeRecord b : Checked ε _) = .ok (StakeRecord.ofBlock b) := by
  rw [stakeRecord, isProofOfStake_eq, checked_ok_bind]
  cases htx : b.coinstake? with
  | none =>
    rw [if_neg (Bool.eq_false_iff.1 (Block.isProofOfStake_of_coinstake?_eq_none htx)),
      checked_ok_bind, StakeRecord.ofBlock, htx]
    rfl
  | some tx =>
    obtain ⟨i, hi, hprevout⟩ := element_staked (ε := ε) htx
    rw [if_pos (Block.isProofOfStake_of_coinstake? htx), element_coinstake htx, checked_ok_bind, hi,
      checked_ok_bind, checked_ok_bind, ← hprevout]
    rfl

end Machine

end Chainstate
