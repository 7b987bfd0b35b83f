-- SUMMARY: Templates, signing keys and script numbers on a machine: every position is in range.
import Chainstate.Proofs.Machine.Scripts
import Chainstate.Proofs.Machine.Shapes
import Chainstate.Proofs.ScriptNumber
import Chainstate.Script.Template
import Chainstate.Stake.Signature

/-!
# Templates on a machine

A machine recognises a template by the length of a script and by bytes at fixed positions, and
looks at no position before it knows the length. So every read is in range, whatever the script.
Script numbers look at the last byte of a magnitude that is not empty.
-/

namespace Chainstate

namespace Machine

variable {ε : Type}

/-! ## Keys -/

/-- The key of `n` bytes that a script of `n + 2` bytes pays to. -/
def paidKeyOfLength (s : Script) (n : Nat) : Checked ε (Option Bytes) := do
  let first ← element s.bytes 0
  let last ← element s.bytes (n + 1)
  if first.toNat = n ∧ last = Opcode.checkSig then
    let key ← slice s.bytes 1 (n + 1)
    .ok (some key)
  else .ok none

/-- The key of a `payToKey` script. -/
def paidKey? (s : Script) : Checked ε (Option Bytes) :=
  if s.bytes.length = 35 then paidKeyOfLength s 33
  else if s.bytes.length = 67 then paidKeyOfLength s 65
  else .ok none

theorem paidKeyOfLength_eq {s : Script} {n : Nat} (hn : Script.isKeyLength n = true)
    (hs : s.bytes.length = n + 2) :
    (paidKeyOfLength s n : Checked ε _) = .ok s.paidKey? := by
  obtain ⟨bytes⟩ := s
  cases bytes with
  | nil => cases hs
  | cons first rest =>
    have hrest : rest.length = n + 1 := Nat.succ.inj hs
    obtain ⟨last, hlast, helement⟩ : ∃ last, rest.drop n = [last] ∧ rest[n]? = some last :=
      ⟨rest[n], by rw [List.drop_eq_getElem_cons (by omega), List.drop_eq_nil_of_le (by omega)],
        List.getElem?_eq_getElem (by omega)⟩
    rw [paidKeyOfLength, element_ok (show (first :: rest)[0]? = some first from rfl),
      checked_ok_bind, element_ok (show (first :: rest)[n + 1]? = some last from helement),
      checked_ok_bind, Script.paidKey?]
    dsimp only
    by_cases hfirst : first.toNat = n
    · rw [hfirst, hn, hrest, hlast]
      by_cases hcode : last = Opcode.checkSig
      · rw [if_pos ⟨rfl, hcode⟩, hcode, slice_ok (by omega) (by rw [hs]; omega)]
        simp
      · rw [if_neg (fun h => hcode h.2), if_neg (by simpa using hcode)]
    · rw [if_neg (fun h => hfirst h.1), if_neg (by simp [hrest, Ne.symm hfirst])]

theorem paidKey?_eq (s : Script) : (paidKey? s : Checked ε _) = .ok s.paidKey? := by
  unfold paidKey?
  split
  · next hlength => exact paidKeyOfLength_eq rfl hlength
  split
  · next hlength => exact paidKeyOfLength_eq rfl hlength
  · next hshort hlong =>
    obtain ⟨bytes⟩ := s
    cases bytes with
    | nil => rfl
    | cons first rest =>
      rw [List.length_cons] at hshort hlong
      rw [Script.paidKey?]
      dsimp only
      rw [if_neg]
      simp only [Script.isKeyLength, Bool.and_eq_true, Bool.or_eq_true, beq_iff_eq, not_and]
      omega

/-- The key that a `dataCarrier` script carries. -/
def carriedKey? (s : Script) : Checked ε (Option Bytes) :=
  if s.bytes.length < 2 then .ok none
  else do
    let first ← element s.bytes 0
    if first ≠ Opcode.opReturn then .ok none
    else
      let n ← element s.bytes 1
      let size ← Word.u64.nat (2 + n.toNat)
      if Script.isKeyLength n.toNat ∧ s.bytes.length = size then
        let key ← slice s.bytes 2 s.bytes.length
        .ok (some key)
      else .ok none

theorem carriedKey?_eq (s : Script) : (carriedKey? s : Checked ε _) = .ok s.carriedKey? := by
  obtain ⟨bytes⟩ := s
  rcases bytes with _ | ⟨first, _ | ⟨n, key⟩⟩
  · rfl
  · rfl
  · have hn := n.toNat_lt
    rw [carriedKey?, if_neg (by simp), element_ok (show (first :: n :: key)[0]? = some first from rfl),
      checked_ok_bind, element_ok (show (first :: n :: key)[1]? = some n from rfl),
      checked_ok_bind, Word.u64_ok (by omega), checked_ok_bind, Script.carriedKey?]
    dsimp only
    by_cases hreturn : first = Opcode.opReturn
    · subst hreturn
      by_cases hkey : Script.isKeyLength n.toNat ∧ (Opcode.opReturn :: n :: key).length = 2 + n.toNat
      · have hlength : key.length = n.toNat := by
          have := hkey.2
          simp only [List.length_cons] at this
          omega
        rw [if_neg (by simp), if_pos hkey, slice_ok (by simp) (Nat.le_refl _), List.take_length,
          if_pos (by simp [hkey.1, hlength])]
        rfl
      · rw [if_neg (by simp), if_neg hkey, if_neg]
        intro h
        apply hkey
        simp only [Bool.and_eq_true, beq_iff_eq, List.length_cons] at h ⊢
        exact ⟨h.1.2, by omega⟩
    · rw [if_pos hreturn, if_neg (by simp [hreturn])]

/-- The hot and cold key hashes of a `coldStaking` script. -/
def coldStakingKeys? (s : Script) : Checked ε (Option (Bytes × Bytes)) :=
  if s.bytes.length ≠ 51 then .ok none
  else do
    let head ← slice s.bytes 0 6
    let first ← element s.bytes 26
    let second ← element s.bytes 27
    let tail ← slice s.bytes 48 s.bytes.length
    if head = [Opcode.dup, Opcode.hash160, Opcode.rot, Opcode.opIf, Opcode.checkColdStakeVerify,
          0x14]
        ∧ first = Opcode.opElse ∧ second = 0x14
        ∧ tail = [Opcode.opEndIf, Opcode.equalVerify, Opcode.checkSig] then
      let hot ← slice s.bytes 6 26
      let cold ← slice s.bytes 28 48
      .ok (some (hot, cold))
    else .ok none

theorem coldStakingKeys?_eq (s : Script) :
    (coldStakingKeys? s : Checked ε _) = .ok s.coldStakingKeys? := by
  rw [coldStakingKeys?, Script.coldStakingKeys?]
  split
  · next hlength => rw [if_neg (by simp [hlength])]
  · next hlength =>
    rw [Decidable.not_not] at hlength
    have hslice {first last : Nat} (h : first ≤ last) (h' : last ≤ 51) :
        (slice s.bytes first last : Checked ε _) = .ok ((s.bytes.drop first).take (last - first)) := by
      rw [slice_ok h (hlength ▸ h'), List.drop_take]
    have hmiddle := take_two_drop (i := 26) (show 26 + 1 < s.bytes.length by omega)
    have hcheck : (s.bytes.length == 51) = true := beq_iff_eq.2 hlength
    rw [hslice (by decide) (by decide), checked_ok_bind,
      element_ok (List.getElem?_eq_getElem (show 26 < _ by omega)), checked_ok_bind,
      element_ok (List.getElem?_eq_getElem (show 27 < _ by omega)), checked_ok_bind,
      slice_ok (by omega) (Nat.le_refl _), checked_ok_bind, List.take_length, List.drop_zero, hmiddle,
      hcheck, hslice (by decide) (by decide), checked_ok_bind, hslice (by decide) (by decide),
      checked_ok_bind]
    simp only [Bool.true_and, Bool.and_eq_true, beq_iff_eq, List.cons.injEq, and_true, and_assoc]
    split
    · rfl
    · rfl

def isColdStaking (s : Script) : Checked ε Bool := do
  let keys ← coldStakingKeys? s
  .ok keys.isSome

theorem isColdStaking_eq (s : Script) :
    (isColdStaking s : Checked ε _) = .ok s.isColdStaking := by
  rw [isColdStaking, coldStakingKeys?_eq]
  rfl

def carriesKey (s : Script) : Checked ε Bool := do
  let key ← carriedKey? s
  .ok key.isSome

theorem carriesKey_eq (s : Script) : (carriesKey s : Checked ε _) = .ok s.carriesKey := by
  rw [carriesKey, carriedKey?_eq]
  rfl

/-! ## Signing keys -/

/-- The first key that one of the outputs carries. -/
def carriedIn : List TxOut → Checked ε (Option Bytes)
  | [] => .ok none
  | o :: rest => do
    match ← carriedKey? o.script with
    | some key => .ok (some key)
    | none => carriedIn rest

theorem carriedIn_eq (os : List TxOut) :
    (carriedIn os : Checked ε _) = .ok (os.findSome? fun o => o.script.carriedKey?) := by
  induction os with
  | nil => rfl
  | cons o rest ih =>
    rw [carriedIn, carriedKey?_eq, checked_ok_bind, List.findSome?_cons]
    cases o.script.carriedKey? with
    | none => exact ih
    | some key => rfl

/-- The key that a second output pays to. -/
def paidSecond (tx : Transaction) : Checked ε (Option Bytes) :=
  match tx.outputs[1]? with
  | some o => paidKey? o.script
  | none => .ok none

/-- The key that must sign. -/
def signingKey? (b : Block) : Checked ε (Option Bytes) :=
  match b.transactions with
  | _ :: tx :: _ => do
    match ← paidSecond tx with
    | some key => .ok (some key)
    | none => carriedIn tx.outputs
  | _ => .ok none

theorem signingKey?_eq (b : Block) : (signingKey? b : Checked ε _) = .ok b.signingKey? := by
  rw [signingKey?, Block.signingKey?]
  rcases b.transactions with _ | ⟨first, _ | ⟨tx, rest⟩⟩
  · rfl
  · rfl
  · have hpaid : (paidSecond tx : Checked ε _)
        = .ok (tx.outputs[1]?.bind fun o => o.script.paidKey?) := by
      unfold paidSecond
      cases tx.outputs[1]? with
      | none => rfl
      | some o => exact paidKey?_eq o.script
    dsimp only
    rw [hpaid, checked_ok_bind]
    cases tx.outputs[1]?.bind fun o => o.script.paidKey? with
    | none => exact carriedIn_eq tx.outputs
    | some key => rfl

def isSigned (b : Block) : Checked ε Bool := do
  let stake ← isProofOfStake b
  if !stake then .ok b.signature.isEmpty
  else
    let key ← signingKey? b
    .ok (match key.bind Secp256k1.ofKey?, Signature.ofBytes? b.signature with
      | some key, some sig => sig.verify key b.digest
      | _, _ => false)

theorem isSigned_eq (b : Block) : (isSigned b : Checked ε _) = .ok b.isSigned := by
  rw [isSigned, isProofOfStake_eq, checked_ok_bind, Block.isSigned, Block.isProofOfWork]
  split
  · rfl
  · rw [signingKey?_eq]
    rfl

/-! ## Script numbers -/

/-- The bytes of an integer as a script number. -/
def encodeNumber (n : Int) : Checked ε Bytes :=
  if n = 0 then .ok []
  else do
    let magnitude := ScriptNumber.magnitude n.natAbs
    let last ← Word.u64.sub magnitude.length 1
    let top ← element magnitude last
    if 0x80 ≤ top then .ok (magnitude ++ [if n < 0 then 0x80 else 0])
    else if n < 0 then .ok (magnitude.set last (top ||| 0x80))
    else .ok magnitude

/-- Pushes a number. -/
def pushNumber (n : Int) : Checked ε Bytes :=
  if n = 0 then .ok [Opcode.zero]
  else if 1 ≤ n ∧ n ≤ 16 then do
    let above ← Word.u8.nat (Opcode.one.toNat + n.toNat)
    let code ← Word.u8.sub above 1
    .ok [UInt8.ofNat code]
  else if n = -1 then .ok [Opcode.negate1]
  else do
    let bytes ← encodeNumber n
    .ok (Script.pushData bytes)

theorem magnitude_ne_nil {n : Nat} (h : n ≠ 0) : ScriptNumber.magnitude n ≠ [] := by
  rw [ScriptNumber.magnitude, if_neg h]
  exact List.cons_ne_nil _ _

/-- The sign goes into the last byte, or after it. -/
theorem withSign_eq (negative : Bool) {bs : Bytes} {last : Nat} {top : UInt8}
    (hlast : bs.length = last + 1) (htop : bs[last]? = some top) :
    ScriptNumber.withSign negative bs
      = if 0x80 ≤ top then bs ++ [if negative then 0x80 else 0]
        else if negative then bs.set last (top ||| 0x80) else bs := by
  obtain rfl | ⟨init, b, rfl⟩ := List.eq_nil_or_concat' bs
  · cases hlast
  obtain rfl : last = init.length := by
    rw [List.length_append] at hlast
    exact (Nat.succ.inj hlast).symm
  rw [List.getElem?_concat_length, Option.some.injEq] at htop
  subst htop
  rw [ScriptNumber.withSign_concat, List.set_append_right _ _ (Nat.le_refl _), Nat.sub_self]
  cases negative with
  | false => rfl
  | true => rfl

theorem encodeNumber_eq {n : Int} :
    (encodeNumber n : Checked ε _) = .ok (ScriptNumber.encode n) := by
  unfold encodeNumber ScriptNumber.encode
  split
  · next hzero =>
    subst hzero
    rw [Int.natAbs_zero, ScriptNumber.magnitude]
    rfl
  · next hne =>
    have hlength := List.length_pos_iff.2 (magnitude_ne_nil (Int.natAbs_ne_zero.2 hne))
    have htop := List.getElem?_eq_getElem (Nat.sub_lt hlength Nat.one_pos)
    dsimp only
    rw [Word.sub_ok hlength, checked_ok_bind, element_ok htop, checked_ok_bind,
      withSign_eq (decide (n < 0)) (Nat.sub_add_cancel hlength).symm htop]
    simp only [decide_eq_true_eq]
    split
    · rfl
    split
    · rfl
    · rfl

theorem pushNumber_eq (n : Int) : (pushNumber n : Checked ε _) = .ok (ScriptNumber.push n) := by
  unfold pushNumber ScriptNumber.push
  split
  · rfl
  split
  · next hsmall =>
    have hone : Opcode.one.toNat = 0x51 := rfl
    rw [Word.u8_ok (by omega), checked_ok_bind, Word.sub_ok (by omega)]
    rfl
  split
  · rfl
  · rw [encodeNumber_eq]
    rfl

end Machine

end Chainstate
