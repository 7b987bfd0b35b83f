-- SUMMARY: The numbers that make up a network's rules, and the rewards they schedule.
import Chainstate.Script

/-!
# Parameters

Amounts are integers in the smallest unit; heights, sizes and timespans are natural numbers.
Main statement: the reward of proof-of-work blocks halves once per interval and ends after
sixty-four halvings.
-/

namespace Chainstate

/-- The smallest units of one coin. -/
def coinUnits : Int := 100000000

/-! ## Signalled forks -/

inductive ForkId where
  | csv
  | segwit
  | coldStaking
  deriving DecidableEq, Repr

/-- A fork that becomes active when enough headers of a window signal its bit. The start and the
timeout are compared with the median time past at the windows' boundaries. -/
structure SignalledFork where
  bit : Nat
  startTime : Int
  timeout : Int
  deriving DecidableEq

namespace SignalledFork

/-- The start time of a fork that is active from the genesis on. -/
def alwaysActive : Int := -1

/-- The timeout of a fork that waits for ever. -/
def noTimeout : Int := 0x7fffffffffffffff

def mask (f : SignalledFork) : UInt32 := 1 <<< UInt32.ofNat f.bit

end SignalledFork

/-! ## Parameters -/

/-- A share of each block's reward that must be paid to a fixed script. -/
structure RewardSplit where
  percentage : Nat
  script : Script
  deriving DecidableEq

/-- The share of a reward, rounded toward zero. -/
def RewardSplit.share (s : RewardSplit) (reward : Int) : Int :=
  (reward * s.percentage).tdiv 100

structure Params where
  -- Block contents
  maxBlockBaseSize : Nat
  maxBlockSigOpsCost : Nat
  witnessScaleFactor : Nat
  maxTransactionSize : Nat
  -- Proof of work
  workLimit : Nat
  workTimespan : Nat
  targetSpacing : Nat
  allowMinDifficulty : Bool
  noRetargeting : Bool
  minimumChainWork : Option Nat
  -- Money
  coinbaseMaturity : Nat
  maxMoney : Int
  halvingInterval : Nat
  workReward : Int
  premineHeight : Nat
  premineReward : Int
  -- Forks
  bip34Height : Nat
  bip65Height : Nat
  bip66Height : Nat
  signalWindow : Nat
  signalThreshold : Nat
  csv : Option SignalledFork
  segwit : Option SignalledFork
  coldStaking : Option SignalledFork
  -- Time and reorganization
  /-- Zero means no limit. -/
  maxReorganization : Nat
  maxFutureDrift : Nat
  -- Proof of stake
  isProofOfStake : Bool
  stakeLimit : Option Nat
  stakeTimespan : Nat
  stakeReward : Int
  lastWorkBlock : Option Nat
  stakeMinConfirmations : Nat
  stakeTimeMask : UInt32
  rewardSplit : Option RewardSplit

namespace Params

def fork? (p : Params) : ForkId → Option SignalledFork
  | .csv => p.csv
  | .segwit => p.segwit
  | .coldStaking => p.coldStaking

/-- The number of blocks between two adjustments of the proof-of-work target. -/
def workInterval (p : Params) : Nat := p.workTimespan / p.targetSpacing

def maxBlockSigOps (p : Params) : Nat := p.maxBlockSigOpsCost / p.witnessScaleFactor

def allowsWorkAt (p : Params) (height : Nat) : Bool :=
  match p.lastWorkBlock with
  | some last => decide (height ≤ last)
  | none => true

def isPremine (p : Params) (height : Nat) : Bool :=
  decide (0 < p.premineReward) && height == p.premineHeight

/-- What a proof-of-work block may create besides its fees. -/
def workRewardAt (p : Params) (height : Nat) : Int :=
  if p.isPremine height then p.premineReward
  else if p.halvingInterval = 0 then p.workReward
  else
    let halvings := height / p.halvingInterval
    if 64 ≤ halvings then 0 else p.workReward >>> halvings

/-- What a proof-of-stake block may create besides its fees. -/
def stakeRewardAt (p : Params) (height : Nat) : Int :=
  if p.isPremine height then p.premineReward else p.stakeReward

def moneyRange (p : Params) (amount : Int) : Bool :=
  decide (0 ≤ amount) && decide (amount ≤ p.maxMoney)

end Params

end Chainstate
