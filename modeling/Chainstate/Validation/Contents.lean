-- SUMMARY: What blocks and transactions must satisfy on their own, without any coins.
import Chainstate.Block
import Chainstate.Chain
import Chainstate.Deployment
import Chainstate.Failure
import Chainstate.Script.Number

namespace Chainstate

/-! ## Transactions -/

namespace Transaction

/-- The largest amount that can be written. -/
def maxAmount : Int := 0x7fffffffffffffff

/-- Each value and each sum of the first values is in range. Sums stop at the largest amount. -/
def checkValues (p : Params) : (total : Int) → List TxOut → Except Rejection Unit
  | _, [] => .ok ()
  | total, o :: rest =>
    if o.amount < 0 then .error .negativeOutput
    else if p.maxMoney < o.amount then .error .outputTooLarge
    else
      let total := min (total + o.amount) maxAmount
      if !p.moneyRange total then .error .totalOutputTooLarge
      else checkValues p total rest

/-- The script of a coinbase has a length between 2 and 100; other transactions refer to outputs
with all their inputs. -/
def checkPrevouts (tx : Transaction) : Except Rejection Unit :=
  if tx.isCoinbase then
    let length := tx.inputs.head?.elim 0 fun i => i.script.bytes.length
    if length < 2 ∨ 100 < length then .error .coinbaseScriptLength else .ok ()
  else if tx.inputs.any fun i => i.prevout.isNull then .error .nullPrevout
  else .ok ()

/-- What needs nothing but the transaction itself. -/
def check (p : Params) (tx : Transaction) : Except Rejection Unit := do
  if tx.inputs.isEmpty then throw .noInputs
  if tx.outputs.isEmpty then throw .noOutputs
  if p.maxTransactionSize < tx.size then throw .oversizeTransaction
  checkValues p 0 tx.outputs
  if ¬(tx.inputs.map TxIn.prevout).Nodup then throw .duplicateInputs
  tx.checkPrevouts

end Transaction

/-! ## Blocks -/

namespace Block

/-- The header commits to the transactions, and to no other list of them. -/
def checkMerkleRoot (b : Block) : Except Rejection Unit :=
  if b.merkleRoot.root ≠ b.header.merkleRoot then .error .merkleRootMismatch
  else if b.merkleRoot.mutated then .error .duplicateTransaction
  else .ok ()

/-- The time that lock times are compared with: the median time before the block where that is in
force, and the block's own otherwise. -/
def lockTimeCutoff (b : Block) (flags : DeploymentFlags) (c : Chain) : UInt32 :=
  match c.parent? with
  | some parent =>
    if flags.lockTime.medianTimePast then parent.medianTimePast else b.header.time
  | none => b.header.time

def checkLockTimes (b : Block) (flags : DeploymentFlags) (c : Chain) : Except Rejection Unit :=
  let cutoff := b.lockTimeCutoff flags c
  if b.transactions.all fun tx => tx.isFinal c.height cutoff.toNat then .ok ()
  else .error .nonFinalTransaction

/-- The script of the first input of the first transaction; empty where there is none. -/
def coinbaseScript (b : Block) : Bytes :=
  match b.transactions with
  | tx :: _ => tx.inputs.head?.elim [] fun i => i.script.bytes
  | [] => []

/-- The coinbase starts with its block's height. -/
def checkCoinbaseHeight (b : Block) (height : Nat) : Except Rejection Unit :=
  if (ScriptNumber.push height).isPrefixOf b.coinbaseScript then .ok ()
  else .error .wrongCoinbaseHeight

def checkSize (b : Block) (p : Params) : Except Rejection Unit :=
  if b.transactions.isEmpty ∨ p.maxBlockBaseSize < b.transactions.length
      ∨ p.maxBlockBaseSize < b.baseSize then
    .error .blockSize
  else .ok ()

/-- The first transaction is a coinbase and no other one is. -/
def checkCoinbasePosition (b : Block) : Except Rejection Unit :=
  match b.transactions with
  | [] => .error .firstNotCoinbase
  | tx :: rest =>
    if !tx.isCoinbase then .error .firstNotCoinbase
    else if rest.any Transaction.isCoinbase then .error .secondCoinbase
    else .ok ()

def checkTransactions (b : Block) (p : Params) : Except Rejection Unit :=
  b.transactions.forM (Transaction.check p)

def checkSigOps (b : Block) (p : Params) : Except Rejection Unit :=
  let sigOps := totalCount (b.transactions.map Transaction.sigOps)
  if p.maxBlockSigOpsCost < sigOps * p.witnessScaleFactor then .error .tooManyWrittenSigOps
  else .ok ()

end Block

end Chainstate
