-- SUMMARY: The rules of proof of stake: block shapes, cold staking, kernels and stake rewards.
import Chainstate.Retarget
import Chainstate.Script.Template
import Chainstate.Stake.Kernel
import Chainstate.Validation.Header
import Chainstate.Validation.Spending

namespace Chainstate

namespace Block

/-! ## Shape -/

/-- No proof-of-work block stands above the last height that allows one. -/
def checkLastWork (b : Block) (p : Params) (height : Nat) : Except Rejection Unit :=
  if b.isProofOfWork && !p.allowsWorkAt height then .error .workAfterLastWorkBlock else .ok ()

/-- The coinbase of a proof-of-stake block pays nothing: its first output is empty and no other can
be spent. -/
def checkEmptyCoinbase (coinbase : Transaction) : Except Rejection Unit :=
  match coinbase.outputs with
  | [] => .error .coinbaseWithoutOutputs
  | o :: rest =>
    if !o.isEmpty then .error .coinbaseOutputNotEmpty
    else if rest.any fun o => !o.script.isUnspendable then .error .coinbaseOutputSpendable
    else .ok ()

/-- A coinstake stands only in second place, and then the coinbase pays nothing and the time has no
bit of the mask. -/
def checkCoinstakeShape (b : Block) (p : Params) : Except Rejection Unit :=
  let others := if b.isProofOfStake then b.transactions.drop 2 else b.transactions
  if others.any Transaction.isCoinstake then .error .secondCoinstake
  else if !b.isProofOfStake then .ok ()
  else do
    checkEmptyCoinbase (← b.first)
    if b.header.time &&& p.stakeTimeMask ≠ 0 then throw .timeNotMasked

/-- The block carries the target of its kind, and meets it if it is a proof-of-work block. -/
def checkKindDifficulty (b : Block) (p : Params) (c : Chain) (lookup : Retarget.StakeLookup)
    (prev : Chain) : Except Failure Unit :=
  match Retarget.kindTarget lookup p prev b.isProofOfStake with
  | .error f => .error (.fault f)
  | .ok target =>
    if b.header.bits ≠ CompactTarget.ofTarget target then .error (.rejected .wrongKindBits)
    else if b.isProofOfStake then .ok ()
    else c.checkProofOfWork.mapError .rejected

end Block

/-! ## Cold staking -/

namespace Staking

/-- The scripts of the coins that a coinstake spends. -/
def inputScripts (w : WorkingSet) (tx : Transaction) : Except Rejection (List Script) :=
  tx.inputs.mapM fun i =>
    match w.coin? i.prevout with
    | some c => .ok c.output.script
    | none => .error .coinstakeInputUnavailable

/-- All outputs but the first return to `source`, save those that carry a key. -/
def returnsTo (source : Script) (tx : Transaction) : Bool :=
  (tx.outputs.drop 1).all fun o => o.script.carriesKey || o.script == source

/-- A coinstake that spends a cold-staking coin spends only coins of one script, pays only to that
script and does not lessen the balance. -/
def checkColdStake (w : WorkingSet) (tx : Transaction) : Except Rejection Unit := do
  let scripts ← inputScripts w tx
  match scripts with
  | [] => pure ()
  | source :: rest =>
    if !(source :: rest).any Script.isColdStaking then pure ()
    else if rest.any fun s => s != source then throw .coldStakeInputsDiffer
    else if !returnsTo source tx then throw .coldStakeOutputElsewhere
    else if tx.totalOutWord < w.valueIn tx then throw .coldStakeShrinks
    else pure ()

/-! ## Kernel -/

/-- What a valid kernel gives: its proof, the next modifier and the value of the staked inputs. -/
structure Kernel where
  proof : Digest
  modifier : Digest
  valueIn : Int

/-- The kernel of a coinstake with the staked outpoint `prevout`. -/
def checkStake (p : Params) (header : Header) (height : Nat) (previous : StakeRecord)
    (w : WorkingSet) (coinstake : Transaction) (prevout : OutPoint) : Except Rejection Kernel :=
  match w.coin? prevout with
  | none => .error .stakedCoinUnavailable
  | some staked =>
    if height - staked.height < p.stakeMinConfirmations then .error .stakeTooRecent
    else if header.time < Stake.coinTime staked then .error .coinstakeBeforeCoins
    else
      match header.bits.decode with
      | .error _ => .error .undecodableBits
      | .ok target => do
        let proof ← Stake.checkKernel target previous.modifier staked prevout header.time
        let valueIn ← w.checkInputs p coinstake height
        pure ⟨proof, Stake.nextModifier (some previous.modifier) prevout.txid, valueIn⟩

/-- The stake record of a block with digest `digest`, and the value of its staked inputs. -/
def recordOf (p : Params) (b : Block) (digest : Digest) (height : Nat) (previous : StakeRecord)
    (w : WorkingSet) : Except Rejection (StakeRecord × Int) :=
  let record := StakeRecord.ofBlock b
  match b.coinstake?, record.prevout with
  | some coinstake, some prevout => do
    let k ← checkStake p b.header height previous w coinstake prevout
    pure ({ record with proof := k.proof, modifier := k.modifier }, k.valueIn)
  | _, _ =>
    let modifier := Stake.nextModifier (some previous.modifier) digest
    .ok ({ record with proof := digest, modifier }, 0)

/-! ## Rewards -/

/-- The share of the reward that the network claims is paid to its script. -/
def checkSplit (p : Params) (tx : Transaction) (reward : Int) : Except Rejection Unit :=
  match p.rewardSplit with
  | none => .ok ()
  | some split =>
    let paid := totalAmount ((tx.outputs.filter fun o => o.script == split.script).map TxOut.amount)
    if paid < split.share reward then .error .rewardSplitUnpaid else .ok ()

/-- The reward of the kind of the block, with the fees, bounds what the block creates. -/
def checkReward (p : Params) (b : Block) (height : Nat) (fees stakeIn : Int) :
    Except Rejection Unit := do
  let coinbase ← b.first
  match b.coinstake? with
  | some coinstake =>
    if coinbase.totalOut ≠ 0 then throw .coinbasePaysBesideStake
    let reward := p.stakeRewardAt height
    if wrappedSum fees reward < coinstake.totalOut - stakeIn then throw .coinstakeOverpays
    checkSplit p coinstake reward
  | none =>
    let reward := p.workRewardAt height
    if wrappedSum fees reward < coinbase.totalOut then throw .coinbaseOverpays
    checkSplit p coinbase reward

end Staking

end Chainstate
