-- SUMMARY: The rules that proof-of-work and proof-of-stake networks register, in order.
import Chainstate.Validation.Rule

namespace Chainstate

namespace RuleSet

/-- Rules on block contents that all networks share. -/
def commonContents : List RuleId :=
  [.contentFlags, .lockTimes, .coinbaseHeight, .blockSize, .coinbasePosition, .transactions,
   .writtenSigOps]

def workRules : List RuleId :=
  [.headerTime, .workDifficulty, .headerVersion, .merkleRoot] ++ commonContents
    ++ [.coinFlags, .loadView, .connectWork, .commitView]

def stakeRules : List RuleId :=
  [.headerTime, .headerVersion, .merkleRoot, .blockSignature] ++ commonContents
    ++ [.lastWorkBlock, .coinstakeShape, .kindDifficulty, .coinFlags, .loadView, .coldStaking,
      .connectStake, .commitView]

/-- The registration of proof-of-work networks. -/
def work : RuleSet where
  header := [.headerTime, .workDifficulty, .headerVersion]
  integrity := [.merkleRoot]
  contents := commonContents
  coins := [.coinFlags, .loadView, .connectWork, .commitView]

/-- The registration of proof-of-stake networks. -/
def stake : RuleSet where
  header := [.headerTime, .headerVersion]
  integrity := [.merkleRoot, .blockSignature]
  contents := commonContents ++ [.lastWorkBlock, .coinstakeShape, .kindDifficulty]
  coins := [.coinFlags, .loadView, .coldStaking, .connectStake, .commitView]

theorem build_workRules : build workRules = .ok work := rfl

theorem build_stakeRules : build stakeRules = .ok stake := rfl

end RuleSet

end Chainstate
