-- SUMMARY: What headers must satisfy: their time, their proof of work and their version.
import Chainstate.Retarget

namespace Chainstate

namespace Chain

/-- The last header is later than the median before it and not too far ahead of the clock. -/
def checkTime (p : Params) (now : UInt32) : Chain → Except Rejection Unit
  | genesis _ => .ok ()
  | extend header parent =>
    if header.time ≤ parent.medianTimePast then .error .timeTooOld
    else if now.toNat + p.maxFutureDrift < header.time.toNat then .error .timeTooNew
    else .ok ()

/-- The digest of the last header meets the target that the header carries. -/
def checkProofOfWork (c : Chain) : Except Rejection Unit :=
  match c.header.bits.decode with
  | .error _ => .error .undecodableBits
  | .ok target => if Target.isMetBy target c.digest then .ok () else .error .workNotMet

/-- The last header carries the target that it must carry, and its digest meets it. -/
def checkWork (p : Params) (c : Chain) : Except Failure Unit :=
  match Retarget.workTarget p c with
  | .error f => .error (.fault f)
  | .ok target =>
    if c.header.bits ≠ CompactTarget.ofTarget target then .error (.rejected .wrongWorkBits)
    else c.checkProofOfWork.mapError .rejected

/-- Versions below 2, 3 and 4 are obsolete from the heights of BIP34, BIP66 and BIP65 on. -/
def checkVersion (p : Params) (c : Chain) : Except Rejection Unit :=
  let version := c.header.version.toInt
  if (version < 2 ∧ p.bip34Height ≤ c.height) ∨ (version < 3 ∧ p.bip66Height ≤ c.height)
      ∨ (version < 4 ∧ p.bip65Height ≤ c.height) then
    .error .obsoleteVersion
  else .ok ()

end Chain

end Chainstate
