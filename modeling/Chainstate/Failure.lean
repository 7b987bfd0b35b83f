-- SUMMARY: Faults of the node, and the two ways in which a validation can fail.
import Chainstate.Failure.Rejection
import Chainstate.Target.Compact
import Chainstate.Transaction.OutPoint

/-!
# Failures

A validation fails with a rejection, which is the block's fault, or with a `Fault`, which says
that the node's own data or rules do not fit together.
-/

namespace Chainstate

/-! ## Faults -/

/-- Stored data that cannot be what was stored. -/
inductive Corruption where
  | headerBits (e : CompactError)
  | tip (e : DecodeError)
  | coin (e : DecodeError)
  | undo (e : DecodeError)
  | stake (e : DecodeError)
  | coinKey (length : Nat)
  | noPreviousTip (height : Nat)
  deriving DecidableEq

def Corruption.message : Corruption → String
  | .headerBits e => s!"stored header bits: {e.message}"
  | .tip e => s!"tip: {e.message}"
  | .coin e => s!"coins: {e.message}"
  | .undo e => s!"rewind: {e.message}"
  | .stake e => s!"stake: {e.message}"
  | .coinKey length => s!"coins key: expected 36 bytes, got {length}"
  | .noPreviousTip height => s!"rewind record {height} has no previous tip"

/-- A rule that ran where what it needs was not there, or a registration that would let it. -/
inductive OrderFault where
  | commitNotLast
  | viewBeforeLoad
  | noStakeChain
  | noBlock
  | flagsUnset
  | viewUnset
  | genesisCommitted
  | committedTwice
  | noCommit
  | noStakeRecord
  deriving DecidableEq

def OrderFault.message : OrderFault → String
  | .commitNotLast => "SaveCoinview must be the last full rule"
  | .viewBeforeLoad => "coin view consumer before LoadCoinview"
  | .noStakeChain => "stake rule registered without a stake chain"
  | .noBlock => "block rule run without a block"
  | .flagsUnset => "deployment flags read before they were set"
  | .viewUnset => "coin view used before it was loaded"
  | .genesisCommitted => "genesis is committed by initialize"
  | .committedTwice => "block committed twice"
  | .noCommit => "full stage finished without a commit"
  | .noStakeRecord => "stake network committed without a stake record"

inductive Fault where
  | corruption (c : Corruption)
  | tipMismatch (expected : Digest) (found : Option Digest)
  | uninitialized
  | missingUndo (height : Nat)
  | missingAncestor (height : Nat) (below : Digest)
  | unknownParent (parent : Digest)
  | duplicateOutPoint (o : OutPoint)
  | doubleSpend (o : OutPoint)
  | missingOutput (o : OutPoint)
  | ruleOrder (f : OrderFault)
  | missingStake (block : Digest)
  | forkPointNotFound (point : Digest)
  deriving DecidableEq

def Fault.message : Fault → String
  | .corruption c => s!"data corruption: {c.message}"
  | .tipMismatch expected found =>
    let actual := match found with
      | some d => d.toHex
      | none => "<none>"
    s!"coin database tip mismatch: expected {expected.toHex}, found {actual}"
  | .uninitialized => "coin database has no tip; initialize it with the genesis block first"
  | .missingUndo height => s!"rewind data missing for height {height}"
  | .missingAncestor height below => s!"ancestor at height {height} missing below {below.toHex}"
  | .unknownParent parent => s!"parent header {parent.toHex} is not in the chain index"
  | .duplicateOutPoint o => s!"duplicate outpoint {o.text} in bulk load"
  | .doubleSpend o => s!"outpoint {o.text} already spent in working set"
  | .missingOutput o => s!"outpoint {o.text} missing from working set"
  | .ruleOrder f => s!"rule ordering violated: {f.message}"
  | .missingStake block => s!"stake data unavailable for block {block.toHex}"
  | .forkPointNotFound point => s!"fork point {point.toHex} is not on the committed chain"

/-! ## Failures -/

inductive Failure where
  | rejected (r : Rejection)
  | fault (f : Fault)
  deriving DecidableEq

def Failure.message : Failure → String
  | .rejected r => s!"consensus: {r.message}"
  | .fault f => s!"engine: {f.message}"

instance : Coe Rejection Failure := ⟨.rejected⟩

instance : Coe Fault Failure := ⟨.fault⟩

end Chainstate
