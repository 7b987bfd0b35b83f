-- SUMMARY: The instructions of a script, and scripts that only push data.
import Chainstate.Script

/-!
# Instructions

A script is read from the front as data pushes and opcodes. Reading never fails: a push whose
length or data runs past the end of the script is the last instruction, `truncated`.
-/

namespace Chainstate

inductive Instruction where
  | push (data : Bytes)
  | op (code : UInt8)
  | truncated
  deriving DecidableEq, Repr

namespace Instruction

/-- The data after a push opcode whose length takes the next `width` bytes. -/
def pushAfter (width : Nat) (bs : Bytes) : Option (Bytes × Bytes) :=
  if (bs.take width).length < width then none
  else
    let n := Bytes.ofLittleEndian (bs.take width)
    let rest := bs.drop width
    if (rest.take n).length < n then none else some (rest.take n, rest.drop n)

/-- The first instruction and the bytes after it. -/
def read (first : UInt8) (bs : Bytes) : Instruction × Bytes :=
  let pushed : Option (Bytes × Bytes) → Instruction × Bytes
    | some (data, rest) => (push data, rest)
    | none => (truncated, [])
  if first = Opcode.zero then (push [], bs)
  else if first.toNat ≤ 0x4b then
    if (bs.take first.toNat).length < first.toNat then (truncated, [])
    else (push (bs.take first.toNat), bs.drop first.toNat)
  else if first = Opcode.pushData1 then pushed (pushAfter 1 bs)
  else if first = Opcode.pushData2 then pushed (pushAfter 2 bs)
  else if first = Opcode.pushData4 then pushed (pushAfter 4 bs)
  else (op first, bs)

theorem length_pushAfter {width : Nat} {bs data rest : Bytes}
    (h : pushAfter width bs = some (data, rest)) : rest.length ≤ bs.length := by
  unfold pushAfter at h
  split at h
  · cases h
  · dsimp only at h
    split at h
    · cases h
    · simp only [Option.some.injEq, Prod.mk.injEq] at h
      rw [← h.2, List.length_drop, List.length_drop]
      omega

/-- What is left after an instruction is no longer than what stood after its first byte. -/
theorem length_read_le (first : UInt8) (bs : Bytes) : (read first bs).2.length ≤ bs.length := by
  have hpush : ∀ width : Nat, ((match pushAfter width bs with
      | some (data, rest) => (push data, rest)
      | none => (truncated, [])) : Instruction × Bytes).2.length ≤ bs.length := by
    intro width
    split
    · rename_i h
      exact length_pushAfter h
    · simp
  unfold read
  dsimp only
  split
  · simp
  split
  · split <;> simp
  split
  · exact hpush 1
  split
  · exact hpush 2
  split
  · exact hpush 4
  · simp

/-- All instructions of a byte string. -/
def all : Bytes → List Instruction
  | [] => []
  | first :: bs => (read first bs).1 :: all (read first bs).2
termination_by bs => bs.length
decreasing_by
  have h := length_read_le first bs
  simp only [List.length_cons]
  omega

end Instruction

namespace Script

def instructions (s : Script) : List Instruction := Instruction.all s.bytes

/-- Pushes of data or of the numbers -1 and 1 to 16, and nothing else. -/
def isPushOnly (s : Script) : Bool :=
  s.instructions.all fun
    | .push _ => true
    | .op code => code == Opcode.negate1 || Opcode.isSmallNumber code
    | .truncated => false

end Script

end Chainstate
