-- SUMMARY: Targets as numbers: which digests meet them and the work they stand for.
import Chainstate.Digest
import Chainstate.Target.Compact

namespace Chainstate

namespace Target

/-- A digest meets a target when it is at most the target. -/
def isMetBy (target : Nat) (d : Digest) : Bool := decide (d.toNat ≤ target)

/-- The expected number of digests until one meets the target. -/
def work (target : Nat) : Nat := 1 <<< 256 / (target + 1)

/-- 64 hexadecimal digits, or more where the target needs them. -/
def text (target : Nat) : String := Hex.padded 64 target

end Target

end Chainstate
