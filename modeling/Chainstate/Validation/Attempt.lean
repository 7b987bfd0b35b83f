-- SUMMARY: One attempt to validate a header or block: what its rules share, and what each rule does.
import Chainstate.Stake.Cache
import Chainstate.Stake.Signature
import Chainstate.Validation.Contents
import Chainstate.Validation.Rule
import Chainstate.Validation.Staking

/-!
# Attempts

The rules of an attempt run on a common state: the deployment flags, the loaded coins and the
stake record that earlier rules have left, the coin database and the deployment cache. A rule that
fails leaves the state as far as it came. Only `commitView` writes to the database.
-/

namespace Chainstate

/-- What rules may read and never change. -/
structure RuleEnv where
  params : Params
  /-- The time that the future is measured from. -/
  now : UInt32
  stakes : Option StakeCache

structure Attempt (σ : Type) where
  chain : Chain
  block : Option Block
  flags : Option DeploymentFlags
  view : Option WorkingSet
  stake : Option StakeRecord
  committed : Bool
  store : σ
  deployments : DeploymentCache

abbrev RuleM (σ α : Type) := EStateM Failure (Attempt σ) α

namespace Attempt

/-- Nothing has been set yet. -/
def start (chain : Chain) (block : Option Block) (store : σ) (deployments : DeploymentCache) :
    Attempt σ :=
  ⟨chain, block, none, none, none, false, store, deployments⟩

/-! ## Access to the state -/

def order (f : OrderFault) : RuleM σ α := throw (.fault (.ruleOrder f))

def check (x : Except Rejection α) : RuleM σ α :=
  match x with
  | .ok a => pure a
  | .error r => throw (.rejected r)

def trust (x : Except Fault α) : RuleM σ α :=
  match x with
  | .ok a => pure a
  | .error f => throw (.fault f)

def validate (x : Except Failure α) : RuleM σ α :=
  match x with
  | .ok a => pure a
  | .error e => throw e

def getBlock : RuleM σ Block := do
  match (← get).block with
  | some b => pure b
  | none => order .noBlock

def getFlags : RuleM σ DeploymentFlags := do
  match (← get).flags with
  | some f => pure f
  | none => order .flagsUnset

def getView : RuleM σ WorkingSet := do
  match (← get).view with
  | some w => pure w
  | none => order .viewUnset

/-- Runs steps on the loaded coins, which keep what the steps did even where they fail. -/
def onView (x : WorkingM Failure α) : RuleM σ α := fun a =>
  match a.view with
  | none => order .viewUnset a
  | some w =>
    match x w with
    | .ok r w => .ok r { a with view := some w }
    | .error e w => .error e { a with view := some w }

/-- The tip that the block extends. A genesis extends nothing. -/
def parentTip : RuleM σ Tip := do
  match (← get).chain.parent? with
  | some parent => pure ⟨parent.digest, parent.height⟩
  | none => order .genesisCommitted

def stakeCache (env : RuleEnv) : RuleM σ StakeCache :=
  match env.stakes with
  | some cache => pure cache
  | none => order .noStakeChain

/-! ## Rules -/

def setFlags (env : RuleEnv) : RuleM σ Unit := do
  let a ← get
  let (flags, deployments) := a.deployments.flags env.params a.chain
  set { a with flags := some flags, deployments }

/-- The outpoints that a block touches: its own outputs and what it spends. -/
def touched (b : Block) : List OutPoint :=
  b.transactions.flatMap fun tx =>
    tx.outPoints ++ if tx.isCoinbase then [] else tx.inputs.map TxIn.prevout

def loadView [CoinStore σ] : RuleM σ Unit := do
  let b ← getBlock
  let expected ← parentTip
  let a ← get
  let tip ← trust (CoinStore.tip? a.store)
  if tip ≠ some expected then
    throw (.fault (.tipMismatch expected.digest (tip.map Tip.digest)))
  let fetched ← trust (CoinStore.fetch a.store (touched b))
  match WorkingSet.load (fetched.toList.map fun oc => ⟨oc.1, oc.2⟩) WorkingSet.empty with
  | .error f _ => throw (.fault f)
  | .ok _ w => set { a with view := some w }

def connectWork (env : RuleEnv) : RuleM σ Unit := do
  let flags ← getFlags
  let b ← getBlock
  let height := (← get).chain.height
  let fees ← onView (Spending.connect env.params height flags.enforceBip30 none b.transactions)
  check (b.checkWorkReward env.params height fees)

def coldStaking : RuleM σ Unit := do
  let flags ← getFlags
  if !flags.coldStakingActive then return
  let b ← getBlock
  match b.coinstake? with
  | none => pure ()
  | some coinstake =>
    let w ← getView
    check (Staking.checkColdStake w coinstake)

def kindDifficulty [CoinStore σ] (env : RuleEnv) : RuleM σ Unit := do
  let b ← getBlock
  let a ← get
  match a.chain.parent? with
  | none => pure ()
  | some prev =>
    let cache ← stakeCache env
    validate (b.checkKindDifficulty env.params a.chain (cache.get a.store) prev)

def connectStake [CoinStore σ] (env : RuleEnv) : RuleM σ Unit := do
  let flags ← getFlags
  let b ← getBlock
  let prev ← parentTip
  let cache ← stakeCache env
  let a ← get
  let previous ← trust (Retarget.StakeLookup.require (cache.get a.store) prev.digest)
  let w ← getView
  let height := a.chain.height
  let (record, stakeIn) ←
    check (Staking.recordOf env.params b a.chain.digest height previous w)
  let fees ← onView (Spending.connect env.params height flags.enforceBip30 (some b.header.time)
    b.transactions)
  check (Staking.checkReward env.params b height fees stakeIn)
  modify fun a => { a with stake := some record }

def commitView [CoinStore σ] : RuleM σ Unit := do
  let a ← get
  if a.committed then order .committedTwice
  else
    let old ← parentTip
    let w ← getView
    let new : Tip := ⟨a.chain.digest, a.chain.height⟩
    modify fun a => { a with view := none }
    let store ← trust (CoinStore.commit a.store w.changes old new (w.undo old))
    modify fun a => { a with store, committed := true }

end Attempt

open Attempt in
/-- What a rule does. -/
def RuleId.run [CoinStore σ] (env : RuleEnv) : RuleId → RuleM σ Unit
  | .headerTime => do check ((← get).chain.checkTime env.params env.now)
  | .workDifficulty => do validate ((← get).chain.checkWork env.params)
  | .headerVersion => do check ((← get).chain.checkVersion env.params)
  | .merkleRoot => do check (← getBlock).checkMerkleRoot
  | .blockSignature => do
    if (← getBlock).isSigned then pure () else throw (.rejected .badBlockSignature)
  | .contentFlags => setFlags env
  | .lockTimes => do
    let flags ← getFlags
    check ((← getBlock).checkLockTimes flags (← get).chain)
  | .coinbaseHeight => do
    let flags ← getFlags
    if flags.enforceBip34 then check ((← getBlock).checkCoinbaseHeight (← get).chain.height)
  | .blockSize => do check ((← getBlock).checkSize env.params)
  | .coinbasePosition => do check (← getBlock).checkCoinbasePosition
  | .transactions => do check ((← getBlock).checkTransactions env.params)
  | .writtenSigOps => do check ((← getBlock).checkSigOps env.params)
  | .lastWorkBlock => do check ((← getBlock).checkLastWork env.params (← get).chain.height)
  | .coinstakeShape => do check ((← getBlock).checkCoinstakeShape env.params)
  | .kindDifficulty => Attempt.kindDifficulty env
  | .coinFlags => setFlags env
  | .loadView => Attempt.loadView
  | .connectWork => Attempt.connectWork env
  | .coldStaking => Attempt.coldStaking
  | .connectStake => Attempt.connectStake env
  | .commitView => Attempt.commitView

/-- Runs rules one after the other until one fails. -/
def runRules [CoinStore σ] (env : RuleEnv) : List RuleId → RuleM σ Unit
  | [] => pure ()
  | id :: rest => do
    id.run env
    runRules env rest

end Chainstate
