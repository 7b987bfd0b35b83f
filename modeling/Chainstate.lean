import Chainstate.Block
import Chainstate.Block.Header
import Chainstate.Block.MerkleTree
import Chainstate.Bytes
import Chainstate.Bytes.Hex
import Chainstate.Chain
import Chainstate.Chain.Index
import Chainstate.Coin
import Chainstate.Coin.Undo
import Chainstate.CommandLine
import Chainstate.CommandLine.Arguments
import Chainstate.CommandLine.Invocation
import Chainstate.CommandLine.Report
import Chainstate.Deployment
import Chainstate.Deployment.Flags
import Chainstate.Digest
import Chainstate.Digest.Sha256
import Chainstate.Engine
import Chainstate.Failure
import Chainstate.Failure.Rejection
import Chainstate.Main
import Chainstate.Network
import Chainstate.Network.Genesis
import Chainstate.Network.Params
import Chainstate.Network.Rules
import Chainstate.Params
import Chainstate.Retarget
import Chainstate.Script
import Chainstate.Script.Instruction
import Chainstate.Script.Number
import Chainstate.Script.SigOps
import Chainstate.Script.Template
import Chainstate.Signature.Der
import Chainstate.Signature.Ecdsa
import Chainstate.Signature.Secp256k1
import Chainstate.Stake.Cache
import Chainstate.Stake.Kernel
import Chainstate.Stake.Record
import Chainstate.Stake.Signature
import Chainstate.Store.Backend
import Chainstate.Store.Contract
import Chainstate.Store.Image
import Chainstate.Store.Memory
import Chainstate.Store.Rows
import Chainstate.Table
import Chainstate.Target
import Chainstate.Target.Compact
import Chainstate.Target.Difficulty
import Chainstate.Text.Decimal
import Chainstate.Text.Invisible
import Chainstate.Text.Json
import Chainstate.Text.Quoted
import Chainstate.Total
import Chainstate.Transaction
import Chainstate.Transaction.OutPoint
import Chainstate.Validation.Attempt
import Chainstate.Validation.Contents
import Chainstate.Validation.Header
import Chainstate.Validation.Rule
import Chainstate.Validation.Spending
import Chainstate.Validation.Staking
import Chainstate.Wire.CompactSize
import Chainstate.Wire.Decoder
import Chainstate.WorkingSet
import Chainstate.Proofs.CoinTable
import Chainstate.Proofs.Ledger
import Chainstate.Proofs.Steps
import Chainstate.Proofs.WorkingSet
import Chainstate.Proofs.Spending
import Chainstate.Proofs.SpentSigOps
import Chainstate.Proofs.Attempt
import Chainstate.Proofs.Connect
import Chainstate.Proofs.Engine
import Chainstate.Proofs.Session
import Chainstate.Proofs.Reachable
import Chainstate.Proofs.Issuance
import Chainstate.Proofs.RewardSchedule
import Chainstate.Proofs.Commitment
import Chainstate.Proofs.MerkleBinding
import Chainstate.Proofs.HeaderTree
import Chainstate.Proofs.HeaderGrowth
import Chainstate.Proofs.ForkPoint
import Chainstate.Proofs.DeploymentCache
import Chainstate.Proofs.StakeCache
import Chainstate.Proofs.WorkTarget
import Chainstate.Proofs.KindTarget
import Chainstate.Proofs.Faults
import Chainstate.Proofs.Posting
import Chainstate.Proofs.Registration
import Chainstate.Proofs.Lockstep
import Chainstate.Proofs.Acceptance
import Chainstate.Proofs.History
import Chainstate.Proofs.Reorganization
import Chainstate.Proofs.Rejection
import Chainstate.Proofs.CompactTarget
import Chainstate.Proofs.Difficulty
import Chainstate.Proofs.Codec
import Chainstate.Proofs.WireForm
import Chainstate.Proofs.StoredForm
import Chainstate.Proofs.ScriptReading
import Chainstate.Proofs.ScriptNumber
import Chainstate.Proofs.Templates
import Chainstate.Proofs.CoinbaseHeight
import Chainstate.Proofs.Uniqueness
import Chainstate.Proofs.RowTable
import Chainstate.Proofs.StoreRefinement
import Chainstate.Proofs.StakeOperations
import Chainstate.Proofs.ModifierChain
import Chainstate.Proofs.Maturity
import Chainstate.Proofs.ColdStaking
import Chainstate.Proofs.MedianTime
import Chainstate.Proofs.ForkStates
import Chainstate.Proofs.ForkQuestions
import Chainstate.Proofs.ForkExpiry
import Chainstate.Proofs.LockTime
import Chainstate.Proofs.Machine.Words
import Chainstate.Proofs.Machine.Scripts
import Chainstate.Proofs.Machine.Templates
import Chainstate.Proofs.Machine.Targets
import Chainstate.Proofs.Machine.Forks
import Chainstate.Proofs.Machine.Contents
import Chainstate.Proofs.Machine.Coins
import Chainstate.Proofs.Machine.Staking
import Chainstate.Proofs.Machine.Rules
import Chainstate.Proofs.Machine.Engine
import Chainstate.Proofs.Machine.Networks
import Chainstate.Proofs.ForkPoint
