-- SUMMARY: The targets that headers must carry, on proof-of-work and on mixed networks.
import Chainstate.Chain
import Chainstate.Failure
import Chainstate.Params
import Chainstate.Stake.Record

/-!
# Retargeting

On a proof-of-work network the target changes once per interval, by the time that the last
interval took, kept between a quarter and four times the intended one. On a network with both
kinds of blocks each kind has a target of its own, which moves with every block by the time
between the last two blocks of that kind.
-/

namespace Chainstate

namespace Retarget

/-- The target of a header that is already part of the chain. -/
def storedTarget (h : Header) : Except Fault Nat :=
  h.bits.decode.mapError fun e => .corruption (.headerBits e)

/-! ## Proof of work -/

/-- The nearest chain at or below `c` that stands on an interval's boundary, or at the genesis, or
does not carry the limit's bits. -/
def lastRegular (p : Params) (c : Chain) : Chain :=
  match c with
  | .genesis header => .genesis header
  | .extend header parent =>
    if (parent.height + 1) % p.workInterval = 0 ∨ header.bits ≠ CompactTarget.ofTarget p.workLimit
    then .extend header parent
    else lastRegular p parent

/-- The time that an interval is taken to have lasted. -/
def clampTimespan (p : Params) (elapsed : Int) : Int :=
  let timespan : Int := p.workTimespan
  max (timespan / 4) (min elapsed (timespan * 4))

/-- The target after an interval whose first header has the time `start`. -/
def nextInterval (p : Params) (last : Chain) (start : UInt32) : Except Fault Nat := do
  let target ← storedTarget last.header
  if p.noRetargeting then pure target
  else
    let elapsed := clampTimespan p (last.time.toNat - start.toNat)
    pure (min (target * elapsed.toNat / p.workTimespan) p.workLimit)

/-- The target that a proof-of-work header must carry. -/
def workTarget (p : Params) (c : Chain) : Except Fault Nat :=
  match c with
  | .genesis _ => .ok p.workLimit
  | .extend header parent =>
    if (parent.height + 1) % p.workInterval ≠ 0 then
      if !p.allowMinDifficulty then storedTarget parent.header
      else if parent.time.toNat + 2 * p.targetSpacing < header.time.toNat then .ok p.workLimit
      else storedTarget (lastRegular p parent).header
    else
      let height := parent.height + 1 - p.workInterval
      match parent.ancestor? height with
      | none => .error (.missingAncestor height parent.digest)
      | some first => nextInterval p parent first.time

/-! ## Two kinds of blocks -/

/-- How stake records are looked up by block. -/
abbrev StakeLookup := Digest → Except Fault (Option StakeRecord)

/-- The record of a block that must have one. -/
def StakeLookup.require (lookup : StakeLookup) (block : Digest) : Except Fault StakeRecord := do
  match ← lookup block with
  | some record => pure record
  | none => throw (.missingStake block)

/-- The nearest chain at or below `c` that ends with a block of a kind, or else the genesis. -/
def lastOfKind (lookup : StakeLookup) (stake : Bool) : Chain → Except Fault Chain
  | .genesis header => do
    let _ ← lookup.require (Chain.genesis header).digest
    pure (.genesis header)
  | .extend header parent => do
    let record ← lookup.require (Chain.extend header parent).digest
    if record.isProofOfStake = stake then pure (.extend header parent)
    else lastOfKind lookup stake parent

def limitOf (p : Params) (stake : Bool) : Nat :=
  if stake then p.stakeLimit.getD p.workLimit else p.workLimit

/-- The moving average: `target` weighted by the time between the last two blocks of its kind. The
factor is a 64-bit number. -/
def average (p : Params) (target : Nat) (elapsed : Int) : Nat :=
  let spacing : Int := p.targetSpacing
  let n : Int := p.stakeTimespan / spacing
  let elapsed := if elapsed < 0 then spacing else elapsed
  let factor := (((n - 1) * spacing + 2 * elapsed) % 0x10000000000000000).toNat
  target * factor / ((n + 1) * spacing).toNat

/-- The target that a block of a kind on top of `prev` must carry. -/
def kindTarget (lookup : StakeLookup) (p : Params) (prev : Chain) (stake : Bool) :
    Except Fault Nat := do
  let limit := limitOf p stake
  let last ← lastOfKind lookup stake prev
  match last with
  | .genesis _ => pure limit
  | .extend header below =>
    let beforeLast ← lastOfKind lookup stake below
    match beforeLast with
    | .genesis _ => pure limit
    | .extend earlier _ =>
      let target ← storedTarget header
      let next := average p target (header.time.toNat - earlier.time.toNat)
      pure (if next = 0 ∨ limit < next then limit else next)

end Retarget

end Chainstate
