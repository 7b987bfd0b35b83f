-- SUMMARY: The parameters of the built-in networks.
import Chainstate.Params

namespace Chainstate

namespace Params

def main : Params where
  maxBlockBaseSize := 1000000
  maxBlockSigOpsCost := 80000
  witnessScaleFactor := 4
  maxTransactionSize := 1000000
  workLimit := 0xffff <<< 208
  workTimespan := 14 * 24 * 60 * 60
  targetSpacing := 10 * 60
  allowMinDifficulty := false
  noRetargeting := false
  minimumChainWork := none
  coinbaseMaturity := 100
  maxMoney := 21000000 * coinUnits
  halvingInterval := 210000
  workReward := 50 * coinUnits
  premineHeight := 0
  premineReward := 0
  bip34Height := 227931
  bip65Height := 388381
  bip66Height := 363725
  signalWindow := 2016
  signalThreshold := 1916
  csv := some { bit := 0, startTime := 1462060800, timeout := 1493596800 }
  segwit := some { bit := 1, startTime := 1479168000, timeout := 1510704000 }
  coldStaking := none
  maxReorganization := 0
  maxFutureDrift := 2 * 60 * 60
  isProofOfStake := false
  stakeLimit := none
  stakeTimespan := 0
  stakeReward := 0
  lastWorkBlock := none
  stakeMinConfirmations := 0
  stakeTimeMask := 0
  rewardSplit := none

def test : Params :=
  { main with
    allowMinDifficulty := true
    bip34Height := 21111
    bip65Height := 581885
    bip66Height := 330776
    signalThreshold := 1512
    csv := some { bit := 0, startTime := 1456790400, timeout := 1493596800 }
    segwit := some { bit := 1, startTime := 1462060800, timeout := 1493596800 } }

def regtest : Params :=
  { main with
    workLimit := 0x7fffff <<< 232
    allowMinDifficulty := true
    noRetargeting := true
    halvingInterval := 150
    bip34Height := 500
    bip65Height := 1351
    bip66Height := 1251
    signalWindow := 144
    signalThreshold := 108
    csv := some { bit := 0, startTime := 0, timeout := SignalledFork.noTimeout }
    segwit := some { bit := 1, startTime := 0, timeout := SignalledFork.noTimeout } }

def stakeMain : Params where
  maxBlockBaseSize := 1000000
  maxBlockSigOpsCost := 80000
  witnessScaleFactor := 4
  maxTransactionSize := 1000000
  workLimit := 0x0fffff <<< 216
  workTimespan := 14 * 24 * 60 * 60
  targetSpacing := 64
  allowMinDifficulty := false
  noRetargeting := false
  minimumChainWork := none
  coinbaseMaturity := 50
  maxMoney := 20000000000 * coinUnits
  halvingInterval := 0
  workReward := 4 * coinUnits
  premineHeight := 2
  premineReward := 98000000 * coinUnits
  bip34Height := 0
  bip65Height := 0
  bip66Height := 0
  signalWindow := 2016
  signalThreshold := 1916
  csv := none
  segwit := none
  coldStaking := some { bit := 2, startTime := 1561939200, timeout := 1593561600 }
  maxReorganization := 500
  maxFutureDrift := 2 * 60 * 60
  isProofOfStake := true
  stakeLimit := some (0x0fffff <<< 216)
  stakeTimespan := 16 * 60
  stakeReward := coinUnits
  lastWorkBlock := some 12500
  stakeMinConfirmations := 500
  stakeTimeMask := 0x0f
  rewardSplit := none

def stakeRegtest : Params :=
  { stakeMain with
    workLimit := 0x7fffff <<< 232
    stakeLimit := some (0x7fffff <<< 232)
    allowMinDifficulty := true
    noRetargeting := true
    coinbaseMaturity := 10
    stakeMinConfirmations := 10
    maxReorganization := 0
    coldStaking := some
      { bit := 2, startTime := SignalledFork.alwaysActive, timeout := SignalledFork.noTimeout } }

end Params

end Chainstate
