-- SUMMARY: The rules that depend on the block they are applied to, and their bit sets.

/-!
# Flags

Which rules are in force for a block. Flags travel as bit sets; bits that stand for nothing are
dropped on reading (`ScriptFlags.ofBits_toBits`).
-/

namespace Chainstate

/-! ## Scripts -/

structure ScriptFlags where
  payToScriptHash : Bool
  strictEncoding : Bool
  derSignatures : Bool
  nullDummy : Bool
  checkLockTime : Bool
  checkSequence : Bool
  witness : Bool
  checkColdStake : Bool
  deriving DecidableEq

namespace ScriptFlags

def toBits (f : ScriptFlags) : Nat :=
  f.payToScriptHash.toNat + f.strictEncoding.toNat <<< 1 + f.derSignatures.toNat <<< 2
    + f.nullDummy.toNat <<< 4 + f.checkLockTime.toNat <<< 9 + f.checkSequence.toNat <<< 10
    + f.witness.toNat <<< 11 + f.checkColdStake.toNat <<< 20

def ofBits (n : Nat) : ScriptFlags where
  payToScriptHash := n.testBit 0
  strictEncoding := n.testBit 1
  derSignatures := n.testBit 2
  nullDummy := n.testBit 4
  checkLockTime := n.testBit 9
  checkSequence := n.testBit 10
  witness := n.testBit 11
  checkColdStake := n.testBit 20

theorem ofBits_toBits (f : ScriptFlags) : ofBits f.toBits = f := by
  obtain ⟨a, b, c, d, e, g, h, i⟩ := f
  cases a <;> cases b <;> cases c <;> cases d <;> cases e <;> cases g <;> cases h <;> cases i
    <;> rfl

end ScriptFlags

/-! ## Lock times -/

structure LockTimeFlags where
  verifySequence : Bool
  medianTimePast : Bool
  deriving DecidableEq

namespace LockTimeFlags

def toBits (f : LockTimeFlags) : Nat := f.verifySequence.toNat + f.medianTimePast.toNat <<< 1

def ofBits (n : Nat) : LockTimeFlags where
  verifySequence := n.testBit 0
  medianTimePast := n.testBit 1

theorem ofBits_toBits (f : LockTimeFlags) : ofBits f.toBits = f := by
  obtain ⟨a, b⟩ := f
  cases a <;> cases b <;> rfl

end LockTimeFlags

/-! ## Blocks -/

/-- The rules in force for one block. -/
structure DeploymentFlags where
  script : ScriptFlags
  lockTime : LockTimeFlags
  enforceBip30 : Bool
  enforceBip34 : Bool
  coldStakingActive : Bool
  deriving DecidableEq

end Chainstate
