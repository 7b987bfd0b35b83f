-- SUMMARY: Stake modifiers and the kernels that proof-of-stake blocks must find.
import Chainstate.Coin
import Chainstate.Failure
import Chainstate.Stake.Record

/-!
# Kernels

A staked coin meets a block's target when the digest of its kernel is at most the target times the
coin's value. The kernel mixes the coin and the time with a modifier that each block derives from
the one before, so that kernels cannot be computed far ahead.
-/

namespace Chainstate

namespace Stake

/-- The modifier after a block: the digest of its kernel source and the modifier before. A genesis
has no modifier before it and gets zero. -/
def nextModifier (previous : Option Digest) (source : Digest) : Digest :=
  match previous with
  | none => Digest.zero
  | some m => sha256d (source.bytes ++ m.bytes)

def kernelDigest (modifier : Digest) (coinTime : UInt32) (prevout : OutPoint) (time : UInt32) :
    Digest :=
  sha256d (modifier.bytes ++ Encode.u32 coinTime ++ prevout.encode ++ Encode.u32 time)

/-- The time of a coin; zero where none is known. -/
def coinTime (c : Coin) : UInt32 := c.time.getD 0

/-- The digest of the kernel, where it meets the target weighted by the staked value. -/
def checkKernel (target : Nat) (modifier : Digest) (staked : Coin) (prevout : OutPoint)
    (time : UInt32) : Except Rejection Digest :=
  if time < coinTime staked then .error .kernelBeforeCoins
  else if staked.amount ≤ 0 then .error .weightlessStake
  else
    let proof := kernelDigest modifier (coinTime staked) prevout time
    if target * staked.amount.toNat < proof.toNat then .error .kernelAboveTarget
    else .ok proof

end Stake

end Chainstate
