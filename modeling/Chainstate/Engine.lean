-- SUMMARY: The engine: validating blocks, taking them back and switching branches.
import Chainstate.Network
import Chainstate.Validation.Attempt

/-!
# Engine

An engine holds a coin database, the cache of stake records and the cache of deployment states of
one network. Validation runs the stages header, integrity, contents and coins; only the last one
writes to the database. The clock is an argument of every operation that reads it.
-/

namespace Chainstate

structure Engine (σ : Type) where
  network : Network
  store : σ
  stakes : Option StakeCache
  deployments : DeploymentCache

/-- Validations: they fail with a rejection or a fault and keep what they have changed so far. -/
abbrev EngineM (σ α : Type) := EStateM Failure (Engine σ) α

/-- Maintenance: it fails with a fault. -/
abbrev MaintainM (σ α : Type) := EStateM Fault (Engine σ) α

namespace Engine

/-- An engine with fresh caches on a database. -/
def ofStore (network : Network) (store : σ) : Engine σ :=
  { network, store
    stakes :=
      if network.params.isProofOfStake then some (StakeCache.ofGenesis network.genesisDigest)
      else none
    deployments := DeploymentCache.empty }

def lift (x : Except Fault α) : MaintainM σ α :=
  match x with
  | .ok a => pure a
  | .error f => throw f

def maintain (x : MaintainM σ α) : EngineM σ α := x.adaptExcept .fault

/-! ## Database -/

variable [CoinStore σ]

def tip : MaintainM σ Tip := do
  match ← lift (CoinStore.tip? (← get).store) with
  | some t => pure t
  | none => throw .uninitialized

/-- Makes the genesis the tip of an empty database. -/
def openAtGenesis : MaintainM σ Tip := do
  let e ← get
  let store ← lift (CoinStore.begin e.store e.network.genesisDigest)
  set { e with store }
  tip

/-- Takes the block at the tip back. -/
def rewind : MaintainM σ Tip := do
  let e ← get
  let (t, store) ← lift (CoinStore.rewind e.store)
  set { e with store }
  pure t

/-! ## Stake records -/

/-- Writes unwritten stake records to the database. -/
def flushStakes (force : Bool) : MaintainM σ Unit := do
  let e ← get
  match e.stakes with
  | none => pure ()
  | some cache =>
    let (cache, store) ← lift (cache.flush e.store force)
    set { e with stakes := some cache, store }

/-- Writes all stake records to the database. -/
def flush : MaintainM σ Unit := flushStakes true

/-- Warms the stake cache with the records of a chain. -/
def loadStakes (c : Chain) : MaintainM σ Unit := fun e =>
  match e.stakes with
  | none => .ok () e
  | some cache =>
    match StakeCache.load e.store c cache with
    | .ok _ cache => .ok () { e with stakes := some cache }
    | .error f cache => .error f { e with stakes := some cache }

/-- The rules in force for the last block of a chain. -/
def deploymentFlags (c : Chain) : MaintainM σ DeploymentFlags := do
  let e ← get
  let (flags, deployments) := e.deployments.flags e.network.params c
  set { e with deployments }
  pure flags

/-! ## Stages -/

/-- Runs rules on a fresh attempt, and gives the attempt as they have left it. -/
def attempt (now : UInt32) (c : Chain) (b : Option Block) (rules : List RuleId) :
    EngineM σ (Attempt σ) := fun e =>
  let env : RuleEnv := { params := e.network.params, now, stakes := e.stakes }
  match runRules env rules (Attempt.start c b e.store e.deployments) with
  | .ok _ a => .ok a { e with store := a.store, deployments := a.deployments }
  | .error f a => .error f { e with store := a.store, deployments := a.deployments }

def validateHeader (now : UInt32) (c : Chain) : EngineM σ Unit := do
  let _ ← attempt now c none (← get).network.rules.header

/-- Integrity and contents. -/
def validateContents (now : UInt32) (c : Chain) (b : Block) : EngineM σ Unit := do
  let rules := (← get).network.rules
  let _ ← attempt now c (some b) (rules.integrity ++ rules.contents)

/-- Remembers the stake record of a committed block. -/
def recordStake (c : Chain) (record : Option StakeRecord) : EngineM σ Unit := do
  let e ← get
  match e.stakes, record with
  | none, _ => pure ()
  | some _, none => throw (.fault (.ruleOrder .noStakeRecord))
  | some cache, some record =>
    set { e with stakes := some (cache.set c record) }
    maintain (flushStakes false)

/-- Checks a block against the coins and commits it. -/
def validateCoins (now : UInt32) (c : Chain) (b : Block) : EngineM σ Unit := do
  let a ← attempt now c (some b) (← get).network.rules.coins
  if !a.committed then throw (.fault (.ruleOrder .noCommit))
  recordStake c a.stake

/-- Runs all stages and commits the block. -/
def validateBlock (now : UInt32) (c : Chain) (b : Block) : EngineM σ Unit := do
  validateHeader now c
  validateContents now c b
  validateCoins now c b

/-! ## Reorganization -/

/-- The first header of a branch that does not stand on the one before it. -/
def unlinked? : List (Chain × Block) → Option Chain
  | a :: b :: rest =>
    if (b.1.parent?.map Chain.digest) = some a.1.digest then unlinked? (b :: rest) else some b.1
  | _ => none

/-- Takes `n` blocks back. -/
def rewindMany : (n : Nat) → MaintainM σ Unit
  | 0 => pure ()
  | n + 1 => do
    let _ ← rewind
    rewindMany n

def validateAll (now : UInt32) : List (Chain × Block) → EngineM σ Unit
  | [] => pure ()
  | (c, b) :: rest => do
    validateBlock now c b
    validateAll now rest

/-- Where a branch leaves the chain of `old`. -/
def forkPoint (old : Chain) (first : Chain) : Except Fault Chain :=
  match first.parent? with
  | none => .error (.forkPointNotFound first.digest)
  | some fork =>
    if ((old.ancestor? fork.height).map Chain.digest) = some fork.digest then .ok fork
    else .error (.forkPointNotFound fork.digest)

/-- Switches from the tip `old` to a branch that starts right above the fork point, lowest block
first. When a block of the branch is rejected, the tip stays at the block below it. -/
def reorganize (now : UInt32) (old : Chain) (branch : List (Chain × Block)) : EngineM σ Tip := do
  match branch with
  | [] => maintain tip
  | (first, b) :: rest =>
    let fork ← maintain (lift (forkPoint old first))
    match unlinked? ((first, b) :: rest) with
    | some c => throw (.fault (.unknownParent c.header.previous))
    | none => pure ()
    let stored ← maintain tip
    if stored.digest ≠ old.digest then
      throw (.fault (.tipMismatch old.digest (some stored.digest)))
    let depth := old.height - fork.height
    let limit := (← get).network.params.maxReorganization
    if limit ≠ 0 ∧ limit < depth then throw (.rejected .reorganizationTooDeep)
    maintain (rewindMany depth)
    validateAll now ((first, b) :: rest)
    maintain tip

end Engine

end Chainstate
