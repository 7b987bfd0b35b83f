-- SUMMARY: Connecting the transactions of a block to its coins: maturity, values, fees and limits.
import Chainstate.Block
import Chainstate.Params
import Chainstate.WorkingSet

/-!
# Spending

`connect` goes through the transactions of a block. Each is checked against the coins as the ones
before it have left them and is then applied. The value checks of a coinstake are left to the
rules of proof of stake.
-/

namespace Chainstate

/-! ## Inputs -/

namespace WorkingSet

/-- A coin may be spent at a height: a coinbase or coinstake has to be deep enough. -/
def checkMaturity (p : Params) (height : Nat) (c : Coin) : Except Rejection Unit :=
  let depth := height - c.height
  if c.fromCoinbase ∧ depth < p.coinbaseMaturity then .error .immatureCoinbase
  else if c.fromCoinstake ∧ depth < p.coinbaseMaturity then .error .immatureCoinstake
  else .ok ()

/-- Adds the values of inputs to `total`, each value and each sum in range. -/
def sumInputs (p : Params) (w : WorkingSet) (height : Nat) :
    (total : Int) → List TxIn → Except Rejection Int
  | total, [] => .ok total
  | total, i :: rest =>
    match w.coin? i.prevout with
    | none => .error .inputUnavailable
    | some c => do
      checkMaturity p height c
      let total := total + c.amount
      if !p.moneyRange c.amount || !p.moneyRange total then throw .inputValueOutOfRange
      sumInputs p w height total rest

/-- The value of the inputs of a transaction that may be spent at a height. -/
def checkInputs (p : Params) (w : WorkingSet) (tx : Transaction) (height : Nat) :
    Except Rejection Int :=
  w.sumInputs p height 0 tx.inputs

/-- The signature operations that the spent outputs of a transaction add. -/
def spendingSigOps (w : WorkingSet) (tx : Transaction) : Nat :=
  totalCount (tx.inputs.map fun i =>
    match w.coin? i.prevout with
    | some c => c.output.script.spendingSigOps i.script
    | none => 0)

end WorkingSet

/-! ## Transactions -/

/-- What the transactions so far add up to. -/
structure Tally where
  fees : Int
  sigOps : Nat
  deriving DecidableEq

namespace Tally

def zero : Tally := ⟨0, 0⟩

/-- Adds the fee of a transaction whose inputs are worth `valueIn`. -/
def addFee (p : Params) (fees : Int) (tx : Transaction) (valueIn : Int) : Except Rejection Int :=
  let fee := valueIn - tx.totalOut
  if valueIn < tx.totalOut then .error .outputsAboveInputs
  else if !p.moneyRange fee then .error .feeOutOfRange
  else if !p.moneyRange (fees + fee) then .error .feeOutOfRange
  else .ok (fees + fee)

/-- Adds a transaction that spends from `w`. -/
def add (p : Params) (w : WorkingSet) (height : Nat) (t : Tally) (tx : Transaction) :
    Except Rejection Tally :=
  let sigOps := t.sigOps + tx.sigOps
  if tx.isCoinbase then .ok ⟨t.fees, sigOps⟩
  else if !w.hasInputs tx then .error .inputsUnavailable
  else do
    let valueIn ← w.checkInputs p tx height
    let fees ← if tx.isCoinstake then pure t.fees else addFee p t.fees tx valueIn
    pure ⟨fees, sigOps + w.spendingSigOps tx⟩

end Tally

namespace Spending

/-- No output of the transaction takes the place of a coin. -/
def overwrites (w : WorkingSet) (tx : Transaction) : Bool :=
  tx.outPoints.any fun o => (w.coin? o).isSome

/-- The checks of one transaction, and the tally with it. -/
def checkTransaction (p : Params) (height : Nat) (bip30 : Bool) (w : WorkingSet) (t : Tally)
    (tx : Transaction) : Except Rejection Tally := do
  if bip30 && overwrites w tx then throw .overwritesOutput
  let t ← t.add p w height tx
  if p.maxBlockSigOpsCost < t.sigOps * p.witnessScaleFactor then throw .tooManySigOps
  pure t

/-- Checks one transaction and applies it. -/
def connectTransaction (p : Params) (height : Nat) (bip30 : Bool) (time : Option UInt32)
    (t : Tally) (tx : Transaction) : WorkingM Failure Tally := do
  match checkTransaction p height bip30 (← get) t tx with
  | .error r => throw (.rejected r)
  | .ok t =>
    (WorkingSet.apply tx height time).adaptExcept .fault
    pure t

/-- Checks and applies all transactions, and gives the fees. -/
def connect (p : Params) (height : Nat) (bip30 : Bool) (time : Option UInt32)
    (txs : List Transaction) : WorkingM Failure Int := do
  let t ← txs.foldlM (connectTransaction p height bip30 time) Tally.zero
  pure t.fees

end Spending

/-! ## Rewards -/

namespace Block

/-- The first transaction; a block without any is rejected. -/
def first (b : Block) : Except Rejection Transaction :=
  match b.transactions with
  | tx :: _ => .ok tx
  | [] => .error .noTransactions

/-- The coinbase creates no more than the scheduled reward and the fees. -/
def checkWorkReward (b : Block) (p : Params) (height : Nat) (fees : Int) :
    Except Rejection Unit := do
  let coinbase ← b.first
  if wrappedSum fees (p.workRewardAt height) < coinbase.totalOut then throw .coinbaseOverpays

end Block

end Chainstate
