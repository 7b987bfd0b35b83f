-- SUMMARY: The reasons for which a block is invalid, with the codes that peers see.
import Chainstate.Wire.Decoder

/-!
# Rejections

A rejection says that a block or one of its transactions breaks a rule. Its code is part of the
network's observable behaviour; its detail is for people and may be empty.
-/

namespace Chainstate

inductive Rejection where
  | malformed (e : DecodeError)
  -- Headers
  | obsoleteVersion
  | timeTooOld
  | timeTooNew
  | wrongWorkBits
  | wrongKindBits
  | undecodableBits
  | workNotMet
  -- Blocks
  | merkleRootMismatch
  | duplicateTransaction
  | badBlockSignature
  | nonFinalTransaction
  | wrongCoinbaseHeight
  | blockSize
  | firstNotCoinbase
  | noTransactions
  | secondCoinbase
  | tooManyWrittenSigOps
  | tooManySigOps
  -- Transactions
  | noInputs
  | noOutputs
  | oversizeTransaction
  | negativeOutput
  | outputTooLarge
  | totalOutputTooLarge
  | duplicateInputs
  | coinbaseScriptLength
  | nullPrevout
  -- Spending
  | overwritesOutput
  | inputsUnavailable
  | inputUnavailable
  | immatureCoinbase
  | immatureCoinstake
  | inputValueOutOfRange
  | outputsAboveInputs
  | feeOutOfRange
  | coinbaseOverpays
  -- Staking
  | coinbasePaysBesideStake
  | coinbaseWithoutOutputs
  | coinbaseOutputNotEmpty
  | coinbaseOutputSpendable
  | secondCoinstake
  | coinstakeBeforeCoins
  | workAfterLastWorkBlock
  | timeNotMasked
  | kernelBeforeCoins
  | weightlessStake
  | kernelAboveTarget
  | stakeTooRecent
  | coinstakeInputUnavailable
  | stakedCoinUnavailable
  | coinstakeOverpays
  | rewardSplitUnpaid
  | coldStakeInputsDiffer
  | coldStakeOutputElsewhere
  | coldStakeShrinks
  -- Reorganization
  | reorganizationTooDeep
  deriving DecidableEq

namespace Rejection

def code : Rejection → String
  | malformed _ => DecodeError.code
  | obsoleteVersion => "bad-version"
  | timeTooOld => "time-too-old"
  | timeTooNew => "time-too-new"
  | wrongWorkBits | wrongKindBits | undecodableBits => "bad-diffbits"
  | workNotMet => "high-hash"
  | merkleRootMismatch => "bad-txnmrklroot"
  | duplicateTransaction => "bad-txns-duplicate"
  | badBlockSignature => "bad-block-signature"
  | nonFinalTransaction => "bad-txns-nonfinal"
  | wrongCoinbaseHeight => "bad-cb-height"
  | blockSize => "bad-blk-length"
  | firstNotCoinbase | noTransactions => "bad-cb-missing"
  | secondCoinbase => "bad-cb-multiple"
  | tooManyWrittenSigOps | tooManySigOps => "bad-blk-sigops"
  | noInputs => "bad-txns-vin-empty"
  | noOutputs => "bad-txns-vout-empty"
  | oversizeTransaction => "bad-txns-oversize"
  | negativeOutput => "bad-txns-vout-negative"
  | outputTooLarge => "bad-txns-vout-toolarge"
  | totalOutputTooLarge => "bad-txns-txouttotal-toolarge"
  | duplicateInputs => "bad-txns-inputs-duplicate"
  | coinbaseScriptLength => "bad-cb-length"
  | nullPrevout => "bad-txns-prevout-null"
  | overwritesOutput => "bad-txns-BIP30"
  | inputsUnavailable | inputUnavailable => "bad-txns-inputs-missingorspent"
  | immatureCoinbase => "bad-txns-premature-spend-of-coinbase"
  | immatureCoinstake => "bad-txns-premature-spend-of-coinstake"
  | inputValueOutOfRange => "bad-txns-inputvalues-outofrange"
  | outputsAboveInputs => "bad-txns-in-belowout"
  | feeOutOfRange => "bad-txns-fee-outofrange"
  | coinbaseOverpays | coinbasePaysBesideStake => "bad-cb-amount"
  | coinbaseWithoutOutputs | coinbaseOutputNotEmpty | coinbaseOutputSpendable => "bad-stake-block"
  | secondCoinstake => "bad-cs-multiple"
  | coinstakeBeforeCoins => "bad-cs-time"
  | workAfterLastWorkBlock => "proof-of-work-too-high"
  | timeNotMasked | kernelBeforeCoins => "stake-time-violation"
  | weightlessStake | kernelAboveTarget => "stake-hash-invalid-target"
  | stakeTooRecent => "invalid-stake-depth"
  | coinstakeInputUnavailable | stakedCoinUnavailable => "read-txPrev-failed"
  | coinstakeOverpays => "bad-cs-amount"
  | rewardSplitUnpaid => "bad-cs-reward-split"
  | coldStakeInputsDiffer => "bad-coldstake-inputs"
  | coldStakeOutputElsewhere => "bad-coldstake-outputs"
  | coldStakeShrinks => "bad-coldstake-amount"
  | reorganizationTooDeep => "max-reorg-violation"

def detail : Rejection → String
  | malformed e => e.detail
  | obsoleteVersion => "rejected obsolete block version"
  | timeTooOld => "block time at or before median time past"
  | timeTooNew => "block time too far in the future"
  | wrongWorkBits => "incorrect proof of work"
  | wrongKindBits => "incorrect difficulty"
  | undecodableBits => "bits do not decode"
  | workNotMet => "proof of work failed"
  | merkleRootMismatch => "hashMerkleRoot mismatch"
  | duplicateTransaction => "duplicate transaction"
  | badBlockSignature => "bad block signature"
  | nonFinalTransaction => "contains a non-final transaction"
  | wrongCoinbaseHeight => "block height mismatch in coinbase"
  | blockSize => "size limits failed"
  | firstNotCoinbase => "first tx is not coinbase"
  | noTransactions => "block has no transactions"
  | secondCoinbase => "more than one coinbase"
  | tooManyWrittenSigOps => "out-of-bounds SigOpCount"
  | tooManySigOps => "too many sigops"
  | noInputs | noOutputs | oversizeTransaction | negativeOutput | outputTooLarge
  | totalOutputTooLarge | duplicateInputs | coinbaseScriptLength | nullPrevout => ""
  | overwritesOutput => "tried to overwrite transaction"
  | inputsUnavailable => "inputs missing or spent"
  | inputUnavailable => ""
  | immatureCoinbase => "tried to spend coinbase before maturity"
  | immatureCoinstake => "tried to spend coinstake before maturity"
  | inputValueOutOfRange | outputsAboveInputs | feeOutOfRange => ""
  | coinbaseOverpays => "coinbase pays too much"
  | coinbasePaysBesideStake => "coinbase pays in a PoS block"
  | coinbaseWithoutOutputs => "coinbase has no outputs"
  | coinbaseOutputNotEmpty => "coinbase output not empty"
  | coinbaseOutputSpendable => "coinbase pays a spendable output"
  | secondCoinstake => "more than one coinstake"
  | coinstakeBeforeCoins => "coinstake older than its input"
  | workAfterLastWorkBlock => "proof of work after last PoW block"
  | timeNotMasked => "timestamp does not match mask"
  | kernelBeforeCoins => "kernel timestamp before staked coins"
  | weightlessStake => "zero-weight stake"
  | kernelAboveTarget => "kernel hash above weighted target"
  | stakeTooRecent => "staked coins too recent"
  | coinstakeInputUnavailable => "coinstake input missing"
  | stakedCoinUnavailable => "staked coins not found"
  | coinstakeOverpays => "coinstake pays too much"
  | rewardSplitUnpaid => "reward split output missing or too small"
  | coldStakeInputsDiffer => "coinstake inputs use different scripts"
  | coldStakeOutputElsewhere => "coinstake output does not return to the cold staking script"
  | coldStakeShrinks => "coinstake reduces the cold staking balance"
  | reorganizationTooDeep => ""

/-- The code, and the detail after a colon where there is one. -/
def message (r : Rejection) : String :=
  if r.detail.isEmpty then r.code else s!"{r.code}: {r.detail}"

end Rejection

end Chainstate
