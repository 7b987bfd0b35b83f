-- SUMMARY: Scripts on a machine: reading instructions by offset, counting signature operations.
import Chainstate.Proofs.Machine.Words
import Chainstate.Proofs.ScriptReading
import Chainstate.Script.SigOps

/-!
# Scripts on a machine

A machine reads a script by an offset into its bytes. Offsets stay within the script and counts of
signature operations are at most twenty for each byte, so both are exact for scripts of less than
`2 ^ 32` bytes.
-/

namespace Chainstate

namespace Machine

variable {ε : Type}

/-! ## Reading by offset -/

/-- A length of `width` bytes at an offset, and the offset after it. -/
def lengthAt (width : Nat) (b : Bytes) (off : Nat) : Checked ε (Option (Nat × Nat)) := do
  let next ← Word.u64.nat (off + width)
  if b.length < next then .ok none
  else
    let bytes ← slice b off next
    .ok (some (Bytes.ofLittleEndian bytes, next))

/-- The push of as many bytes as `length` says from the offset with it, and the offset after it. -/
def pushAt (b : Bytes) (length : Option (Nat × Nat)) : Checked ε (Instruction × Nat) :=
  match length with
  | none => .ok (.truncated, b.length)
  | some (n, off) => do
    let left ← Word.u64.sub b.length off
    if left < n then .ok (.truncated, b.length)
    else
      let next ← Word.u64.nat (off + n)
      let data ← slice b off next
      .ok (.push data, next)

/-- The instruction at an offset, and the offset after it. -/
def readAt (b : Bytes) (off : Nat) : Checked ε (Instruction × Nat) := do
  let first ← element b off
  let off ← Word.u64.nat (off + 1)
  if first = Opcode.zero then .ok (.push [], off)
  else if first.toNat ≤ 0x4b then pushAt b (some (first.toNat, off))
  else if first = Opcode.pushData1 then do pushAt b (← lengthAt 1 b off)
  else if first = Opcode.pushData2 then do pushAt b (← lengthAt 2 b off)
  else if first = Opcode.pushData4 then do pushAt b (← lengthAt 4 b off)
  else .ok (.op first, off)

/-- The instructions from an offset on. `n` bounds their number. -/
def instructionsFrom (b : Bytes) : (n off : Nat) → Checked ε (List Instruction)
  | 0, _ => .ok []
  | n + 1, off =>
    if b.length ≤ off then .ok []
    else do
      let (i, off) ← readAt b off
      let rest ← instructionsFrom b n off
      .ok (i :: rest)

def instructions (s : Script) : Checked ε (List Instruction) :=
  instructionsFrom s.bytes s.bytes.length 0

variable {b : Bytes} {off : Nat}

theorem lengthAt_eq (hoff : off ≤ b.length) (hb : b.length ≤ 0xffffffff) {width : Nat}
    (hwidth : width ≤ 4) :
    (lengthAt width b off : Checked ε _)
      = .ok (if ((b.drop off).take width).length < width then none
        else some (Bytes.ofLittleEndian ((b.drop off).take width), off + width)) := by
  rw [lengthAt, Word.u64_ok (by omega), checked_ok_bind, List.length_take, List.length_drop]
  split
  · rw [if_pos (by omega)]
  · rw [if_neg (by omega), slice_ok (by omega) (by omega), List.drop_take, Nat.add_sub_cancel_left]
    rfl

theorem pushAt_eq (hoff : off ≤ b.length) (hb : b.length ≤ 0xffffffff) (n : Nat) :
    (pushAt b (some (n, off)) : Checked ε _)
      = .ok (if ((b.drop off).take n).length < n then (.truncated, b.length)
        else (.push ((b.drop off).take n), off + n)) := by
  rw [pushAt, Word.sub_ok hoff, checked_ok_bind, List.length_take, List.length_drop]
  split
  · rw [if_pos (by omega)]
  · rw [if_neg (by omega), Word.u64_ok (by omega), checked_ok_bind, slice_ok (by omega) (by omega),
      List.drop_take, Nat.add_sub_cancel_left]
    rfl

/-- A reading at an offset is one from the bytes that start there: it gives the same instruction,
and the bytes after it start at the offset after it. -/
def Follows (b : Bytes) (off : Nat) (r : Instruction × Nat) (r' : Instruction × Bytes) : Prop :=
  r.1 = r'.1 ∧ b.drop r.2 = r'.2 ∧ off < r.2 ∧ r.2 ≤ b.length

theorem pushAt_lengthAt (hoff : off < b.length) (hb : b.length ≤ 0xffffffff) {width : Nat}
    (hwidth : width ≤ 4) :
    ∃ r, ((lengthAt width b (off + 1) >>= pushAt b : Checked ε _)) = .ok r
      ∧ Follows b off r (match Instruction.pushAfter width (b.drop (off + 1)) with
        | some (data, rest) => (.push data, rest)
        | none => (.truncated, [])) := by
  rw [lengthAt_eq hoff hb hwidth, checked_ok_bind]
  unfold Instruction.pushAfter
  split
  · exact ⟨_, rfl, rfl, List.drop_length, hoff, Nat.le_refl _⟩
  · next hlength =>
    rw [List.length_take, List.length_drop] at hlength
    rw [pushAt_eq (by omega) hb]
    dsimp only
    rw [List.drop_drop]
    split
    · exact ⟨_, rfl, rfl, List.drop_length, hoff, Nat.le_refl _⟩
    · next hdata =>
      rw [List.length_take, List.length_drop] at hdata
      exact ⟨_, rfl, rfl, (List.drop_drop ..).symm, by omega, by omega⟩

theorem readAt_eq (hoff : off < b.length) (hb : b.length ≤ 0xffffffff) :
    ∃ r, (readAt b off : Checked ε _) = .ok r
      ∧ Follows b off r (Instruction.read b[off] (b.drop (off + 1))) := by
  rw [readAt, element_ok (List.getElem?_eq_getElem hoff), checked_ok_bind,
    Word.u64_ok (by omega), checked_ok_bind]
  unfold Instruction.read
  dsimp only
  split
  · exact ⟨_, rfl, rfl, rfl, Nat.lt_succ_self off, hoff⟩
  split
  · rw [pushAt_eq hoff hb]
    split
    · exact ⟨_, rfl, rfl, List.drop_length, hoff, Nat.le_refl _⟩
    · next hdata =>
      rw [List.length_take, List.length_drop] at hdata
      exact ⟨_, rfl, rfl, (List.drop_drop ..).symm, by omega, by omega⟩
  split
  · exact pushAt_lengthAt hoff hb (by decide)
  split
  · exact pushAt_lengthAt hoff hb (by decide)
  split
  · exact pushAt_lengthAt hoff hb (by decide)
  · exact ⟨_, rfl, rfl, rfl, Nat.lt_succ_self off, hoff⟩

theorem instructionsFrom_eq (hb : b.length ≤ 0xffffffff) {n : Nat} (hoff : off ≤ b.length)
    (hn : b.length ≤ off + n) :
    (instructionsFrom b n off : Checked ε _) = .ok (Instruction.all (b.drop off)) := by
  induction n generalizing off with
  | zero =>
    rw [List.drop_eq_nil_of_le (by omega), Instruction.all]
    rfl
  | succ n ih =>
    rw [instructionsFrom]
    split
    · next hend =>
      rw [List.drop_eq_nil_of_le hend, Instruction.all]
    · next hmore =>
      have hlt : off < b.length := Nat.lt_of_not_le hmore
      obtain ⟨r, hread, hfirst, hrest, hnext, hle⟩ := readAt_eq (ε := ε) hlt hb
      rw [hread, checked_ok_bind, List.drop_eq_getElem_cons hlt, Instruction.all, ← hfirst,
        ← hrest]
      change (instructionsFrom b n r.2 >>= _) = _
      rw [ih hle (by omega)]
      rfl

theorem instructions_eq {s : Script} (hs : s.bytes.length ≤ 0xffffffff) :
    (instructions s : Checked ε _) = .ok s.instructions :=
  instructionsFrom_eq hs (Nat.zero_le _) (by omega)

/-! ## Signature operations -/

/-- The weight of an opcode that comes after the opcode `last`, if it comes after one. -/
def sigOpWeight (accurate : Bool) (last : Option UInt8) (code : UInt8) : Checked ε Nat :=
  if code = Opcode.checkSig ∨ code = Opcode.checkSigVerify then .ok 1
  else if code = Opcode.checkMultiSig ∨ code = Opcode.checkMultiSigVerify then
    match last with
    | some n =>
      if accurate && Opcode.isSmallNumber n then do
        let above ← Word.u8.sub n.toNat Opcode.one.toNat
        Word.u8.nat (above + 1)
      else .ok Instruction.maxKeysPerMultiSig
    | none => .ok Instruction.maxKeysPerMultiSig
  else .ok 0

theorem sigOpWeight_eq (accurate : Bool) (last : Option UInt8) (code : UInt8) :
    (sigOpWeight accurate last code : Checked ε _)
      = .ok (Instruction.sigOpWeight accurate last code) := by
  unfold sigOpWeight Instruction.sigOpWeight
  split
  · rfl
  split
  · cases last with
    | none => rfl
    | some n =>
      dsimp only
      split
      · next hsmall =>
        obtain ⟨hlow, -⟩ := Bool.and_eq_true_iff.1 (Bool.and_eq_true_iff.1 hsmall).2
        have hn := n.toNat_lt
        have hone : Opcode.one.toNat ≤ n.toNat := UInt8.le_iff_toNat_le.1 (of_decide_eq_true hlow)
        rw [Word.sub_ok hone, checked_ok_bind, Word.u8_ok (by change _ - 0x51 + 1 ≤ _; omega)]
      · rfl
  · rfl

/-- No opcode weighs more than the most keys. -/
theorem sigOpWeight_le (accurate : Bool) (last : Option UInt8) (code : UInt8) :
    Instruction.sigOpWeight accurate last code ≤ 20 := by
  unfold Instruction.sigOpWeight
  split
  · decide
  split
  · cases last with
    | none => exact Nat.le_refl _
    | some n =>
      dsimp only
      split
      · next hsmall =>
        obtain ⟨-, hhigh⟩ := Bool.and_eq_true_iff.1 (Bool.and_eq_true_iff.1 hsmall).2
        have : n.toNat ≤ Opcode.sixteen.toNat := UInt8.le_iff_toNat_le.1 (of_decide_eq_true hhigh)
        change n.toNat ≤ 0x60 at this
        change n.toNat - 0x51 + 1 ≤ 20
        omega
      · exact Nat.le_refl _
  · decide

/-- Adds the signature operations of instructions to `total`. -/
def sigOps (accurate : Bool) : (total : Nat) → (last : Option UInt8) → List Instruction →
    Checked ε Nat
  | total, _, [] => .ok total
  | total, _, .truncated :: _ => .ok total
  | total, _, .push _ :: rest => sigOps accurate total none rest
  | total, last, .op code :: rest => do
    let weight ← sigOpWeight accurate last code
    let total ← Word.u64.nat (total + weight)
    sigOps accurate total (some code) rest

theorem sigOps_le (accurate : Bool) (last : Option UInt8) (is : List Instruction) :
    Instruction.sigOps accurate last is ≤ 20 * is.length := by
  induction is generalizing last with
  | nil => exact Nat.le_refl _
  | cons i rest ih =>
    rw [List.length_cons]
    cases i with
    | push data =>
      have := ih none
      rw [Instruction.sigOps]
      omega
    | op code =>
      have := ih (some code)
      have := sigOpWeight_le accurate last code
      rw [Instruction.sigOps]
      omega
    | truncated =>
      rw [Instruction.sigOps]
      omega

theorem sigOps_eq (accurate : Bool) {total : Nat} (last : Option UInt8) {is : List Instruction}
    (h : total + 20 * is.length ≤ 0xffffffffffffffff) :
    (sigOps accurate total last is : Checked ε _)
      = .ok (total + Instruction.sigOps accurate last is) := by
  induction is generalizing total last with
  | nil => rfl
  | cons i rest ih =>
    rw [List.length_cons] at h
    cases i with
    | push data => exact ih none (by omega)
    | op code =>
      have hweight := sigOpWeight_le accurate last code
      rw [sigOps, sigOpWeight_eq, checked_ok_bind, Word.u64_ok (by omega), checked_ok_bind,
        ih (some code) (by omega), Instruction.sigOps, Nat.add_assoc]
    | truncated => rfl

theorem scriptSigOps_le (s : Script) (accurate : Bool) :
    s.sigOps accurate ≤ 20 * s.bytes.length :=
  Nat.le_trans (sigOps_le accurate none _) (Nat.mul_le_mul_left 20 (Instruction.length_all_le s.bytes))

def scriptSigOps (s : Script) (accurate : Bool) : Checked ε Nat := do
  let is ← instructions s
  sigOps accurate 0 none is

theorem scriptSigOps_eq {s : Script} (hs : s.bytes.length ≤ 0xffffffff) (accurate : Bool) :
    (scriptSigOps s accurate : Checked ε _) = .ok (s.sigOps accurate) := by
  have hle : s.instructions.length ≤ s.bytes.length :=
    Instruction.length_all_le s.bytes
  rw [scriptSigOps, instructions_eq hs, checked_ok_bind, sigOps_eq accurate none (by omega),
    Nat.zero_add]
  rfl

/-! ## Redeem scripts -/

theorem length_lastPush {n : Nat} {redeem last : Bytes} {is : List Instruction}
    (hredeem : redeem.length ≤ n) (his : ∀ data, .push data ∈ is → data.length ≤ n)
    (h : Script.lastPush redeem is = some last) : last.length ≤ n := by
  induction is generalizing redeem with
  | nil =>
    cases h
    exact hredeem
  | cons i rest ih =>
    have hrest : ∀ data, .push data ∈ rest → data.length ≤ n :=
      fun data hdata => his data (List.mem_cons_of_mem _ hdata)
    cases i with
    | push data => exact ih (his data List.mem_cons_self) hrest h
    | op code =>
      rw [Script.lastPush] at h
      split at h
      · exact ih (Nat.zero_le _) hrest h
      · cases h
    | truncated => cases h

/-- The hash of a redeem script between `OP_HASH160` and `OP_EQUAL`. -/
def isPayToScriptHash (s : Script) : Checked ε Bool :=
  if s.bytes.length = 23 then do
    let first ← element s.bytes 0
    let second ← element s.bytes 1
    let last ← element s.bytes 22
    .ok (first == Opcode.hash160 && second == 0x14 && last == Opcode.equal)
  else .ok false

/-- Two neighbouring elements of a list. -/
theorem take_two_drop {α : Type} {xs : List α} {i : Nat} (h : i + 1 < xs.length) :
    (xs.drop i).take 2 = [xs[i], xs[i + 1]] := by
  rw [List.drop_eq_getElem_cons (Nat.lt_of_succ_lt h), List.take_succ_cons,
    List.drop_eq_getElem_cons h, List.take_succ_cons, List.take_zero]

theorem isPayToScriptHash_eq (s : Script) :
    (isPayToScriptHash s : Checked ε _) = .ok s.isPayToScriptHash := by
  unfold isPayToScriptHash Script.isPayToScriptHash
  split
  · next hlength =>
    have hfirst := take_two_drop (i := 0) (show 0 + 1 < s.bytes.length by omega)
    have hlast : s.bytes.drop 22 = [s.bytes[22]] := by
      rw [List.drop_eq_getElem_cons (by omega), List.drop_eq_nil_of_le (by omega)]
    have hcheck : (s.bytes.length == 23) = true := beq_iff_eq.2 hlength
    rw [List.drop_zero] at hfirst
    rw [element_ok (List.getElem?_eq_getElem (show 0 < _ by omega)), checked_ok_bind,
      element_ok (List.getElem?_eq_getElem (show 1 < _ by omega)), checked_ok_bind,
      element_ok (List.getElem?_eq_getElem (show 22 < _ by omega)), checked_ok_bind, hfirst, hlast,
      hcheck]
    simp only [List.cons_beq_cons, BEq.rfl, Bool.true_and, Bool.and_true]
  · next hlength => rw [beq_false_of_ne hlength, Bool.false_and, Bool.false_and]

/-- The signature operations that spending an output with script `s` by `input` adds. -/
def spendingSigOps (s input : Script) : Checked ε Nat := do
  let hidden ← isPayToScriptHash s
  if !hidden then scriptSigOps s true
  else
    let is ← instructions input
    match Script.lastPush [] is with
    | some redeem => scriptSigOps ⟨redeem⟩ true
    | none => .ok 0

theorem spendingSigOps_eq {s input : Script} (hs : s.bytes.length ≤ 0xffffffff)
    (hinput : input.bytes.length ≤ 0xffffffff) :
    (spendingSigOps s input : Checked ε _) = .ok (s.spendingSigOps input) := by
  rw [spendingSigOps, isPayToScriptHash_eq, checked_ok_bind, Script.spendingSigOps]
  split
  · exact scriptSigOps_eq hs true
  · rw [instructions_eq hinput, checked_ok_bind]
    cases hlast : Script.lastPush [] input.instructions with
    | none => rfl
    | some redeem =>
      have := length_lastPush (Nat.zero_le _) (fun _ => Instruction.length_le_of_push_mem) hlast
      exact scriptSigOps_eq (Nat.le_trans this hinput) true

theorem spendingSigOps_le (s input : Script) :
    s.spendingSigOps input ≤ 20 * max s.bytes.length input.bytes.length := by
  rw [Script.spendingSigOps]
  split
  · have := scriptSigOps_le s true
    omega
  · cases hlast : Script.lastPush [] input.instructions with
    | none => exact Nat.zero_le _
    | some redeem =>
      have := length_lastPush (Nat.zero_le _) (fun _ => Instruction.length_le_of_push_mem) hlast
      have := scriptSigOps_le ⟨redeem⟩ true
      dsimp only at this ⊢
      omega

end Machine

end Chainstate
