-- SUMMARY: Script numbers: the shortest bytes of an integer, and pushes of which none starts another.
import Chainstate.Proofs.ScriptReading
import Chainstate.Script.Number
import Mathlib.Data.List.Basic

/-!
# Script numbers

The last byte of a script number holds the sign in its top bit, and all other bits are the magnitude
(`ScriptNumber.decode_concat`). So bytes of a length can only stand for integers below a bound, and
an integer below the bound is encoded in no more bytes: no other bytes that stand for it are as
short (`ScriptNumber.length_encode_lt`).

The push of an integer is one instruction, and the integer can be told from it
(`ScriptNumber.spells_push`). A script starts with one instruction only, so it starts with the push
of one integer only (`ScriptNumber.eq_of_startsWith_push`).
-/

namespace Chainstate

/-! ## Bytes -/

namespace Bytes

theorem capacity_mono {low high : Nat} (h : low ≤ high) : capacity low ≤ capacity high := by
  induction h with
  | refl => exact Nat.le_refl _
  | step _ ih =>
    rw [capacity]
    omega

theorem ofLittleEndian_concat (bs : Bytes) (top : UInt8) :
    ofLittleEndian (bs ++ [top]) = ofLittleEndian bs + capacity bs.length * top.toNat := by
  induction bs with
  | nil => simp [ofLittleEndian, capacity]
  | cons b bs ih =>
    rw [List.cons_append, ofLittleEndian, ofLittleEndian, ih, List.length_cons, capacity,
      Nat.mul_add, Nat.mul_assoc, Nat.add_assoc]

theorem ofLittleEndian_injective {as bs : Bytes} (hlength : as.length = bs.length)
    (h : ofLittleEndian as = ofLittleEndian bs) : as = bs := by
  rw [← littleEndian_ofLittleEndian as, ← littleEndian_ofLittleEndian bs, hlength, h]

end Bytes

namespace ScriptNumber

variable {bs : Bytes} {top : UInt8} {n : Int}

/-! ## The sign -/

theorem sign_iff (top : UInt8) : 0x80 ≤ top ↔ 128 ≤ top.toNat := UInt8.le_iff_toNat_le

theorem toNat_unsigned (top : UInt8) : (top &&& 0x7f).toNat = top.toNat % 128 := by
  rw [UInt8.toNat_and]
  exact Nat.and_two_pow_sub_one_eq_mod top.toNat 7

theorem toNat_signed (h : ¬ 0x80 ≤ top) : (top ||| 0x80).toNat = 128 + top.toNat := by
  rw [sign_iff, Nat.not_le] at h
  rw [UInt8.toNat_or, Nat.or_comm]
  exact (Nat.two_pow_add_eq_or_of_lt (i := 7) h 1).symm

/-- A byte is its sign and the rest. -/
theorem eq_of_unsigned_eq {a b : UInt8} (hsign : 0x80 ≤ a ↔ 0x80 ≤ b)
    (hrest : a &&& 0x7f = b &&& 0x7f) : a = b := by
  have hrest := congrArg UInt8.toNat hrest
  rw [toNat_unsigned, toNat_unsigned] at hrest
  rw [sign_iff, sign_iff] at hsign
  have ha := a.toNat_lt
  have hb := b.toNat_lt
  apply UInt8.toNat_inj.1
  omega

theorem unsigned_of_low (h : ¬ 0x80 ≤ top) : top &&& 0x7f = top := by
  rw [sign_iff] at h
  apply UInt8.toNat_inj.1
  rw [toNat_unsigned, Nat.mod_eq_of_lt (Nat.lt_of_not_le h)]

theorem unsigned_signed (h : ¬ 0x80 ≤ top) : (top ||| 0x80) &&& 0x7f = top := by
  apply UInt8.toNat_inj.1
  rw [toNat_unsigned, toNat_signed h]
  rw [sign_iff] at h
  omega

theorem sign_signed (h : ¬ 0x80 ≤ top) : 0x80 ≤ top ||| 0x80 := by
  rw [sign_iff, toNat_signed h]
  exact Nat.le_add_right ..

/-- The sign goes into the last byte where there is room, and into a byte of its own otherwise. -/
theorem withSign_concat (negative : Bool) (bs : Bytes) (top : UInt8) :
    withSign negative (bs ++ [top])
      = if 0x80 ≤ top then bs ++ [top] ++ [if negative then 0x80 else 0]
        else bs ++ [if negative then top ||| 0x80 else top] := by
  induction bs with
  | nil => rfl
  | cons b bs ih =>
    rw [List.cons_append, withSign, ih]
    · split
      · rfl
      · rfl
    · simp

/-- The sign is read from the top bit of the last byte, and the magnitude from all other bits. -/
theorem decode_concat (bs : Bytes) (top : UInt8) :
    decode (bs ++ [top])
      = if 0x80 ≤ top then -(Bytes.ofLittleEndian (bs ++ [top &&& 0x7f]) : Int)
        else Bytes.ofLittleEndian (bs ++ [top &&& 0x7f]) := by
  induction bs with
  | nil =>
    rw [List.nil_append, decode]
    split
    · simp [Bytes.ofLittleEndian]
    · next hlow => simp [Bytes.ofLittleEndian, unsigned_of_low hlow]
  | cons b bs ih =>
    rw [List.cons_append, decode, ih, List.getLastD_concat, List.cons_append, Bytes.ofLittleEndian]
    · split
      · omega
      · omega
    · simp

/-- What is read back is the magnitude with the sign. -/
theorem decode_withSign (negative : Bool) (bs : Bytes) :
    decode (withSign negative bs)
      = if negative then -(Bytes.ofLittleEndian bs : Int) else Bytes.ofLittleEndian bs := by
  obtain rfl | ⟨bs, top, rfl⟩ := List.eq_nil_or_concat' bs
  · cases negative <;> rfl
  rw [withSign_concat]
  by_cases hsign : 0x80 ≤ top
  · have hzero : Bytes.ofLittleEndian (bs ++ [top] ++ [0]) = Bytes.ofLittleEndian (bs ++ [top]) :=
      Bytes.ofLittleEndian_concat ..
    rw [if_pos hsign, decode_concat]
    cases negative with
    | true => exact congrArg (fun m : Nat => -(m : Int)) hzero
    | false => exact congrArg Nat.cast hzero
  · rw [if_neg hsign, decode_concat]
    cases negative with
    | true => simp [sign_signed hsign, unsigned_signed hsign]
    | false => simp [hsign, unsigned_of_low hsign]

theorem ofLittleEndian_magnitude (n : Nat) : Bytes.ofLittleEndian (magnitude n) = n := by
  induction n using magnitude.induct with
  | case1 => simp [magnitude, Bytes.ofLittleEndian]
  | case2 n hne ih =>
    rw [magnitude, if_neg hne, Bytes.ofLittleEndian, ih, UInt8.toNat_ofNat']
    omega

theorem decode_encode (n : Int) : decode (encode n) = n := by
  rw [encode, decode_withSign, ofLittleEndian_magnitude]
  simp only [decide_eq_true_eq]
  omega

/-! ## Lengths -/

theorem natAbs_decode_concat (bs : Bytes) (top : UInt8) :
    (decode (bs ++ [top])).natAbs = Bytes.ofLittleEndian (bs ++ [top &&& 0x7f]) := by
  rw [decode_concat]
  split
  · rw [Int.natAbs_neg, Int.natAbs_natCast]
  · rw [Int.natAbs_natCast]

/-- The sign leaves seven bits of the last byte. -/
theorem natAbs_decode_concat_lt (bs : Bytes) (top : UInt8) :
    (decode (bs ++ [top])).natAbs < 128 * Bytes.capacity bs.length := by
  have hbs := Bytes.ofLittleEndian_lt bs
  have htop : Bytes.capacity bs.length * (top &&& 0x7f).toNat ≤ Bytes.capacity bs.length * 127 := by
    rw [toNat_unsigned]
    exact Nat.mul_le_mul_left _ (Nat.le_of_lt_succ (Nat.mod_lt _ (by decide)))
  rw [natAbs_decode_concat, Bytes.ofLittleEndian_concat]
  omega

theorem length_magnitude_le {k m : Nat} (h : m < Bytes.capacity k) : (magnitude m).length ≤ k := by
  induction k generalizing m with
  | zero =>
    obtain rfl : m = 0 := Nat.lt_one_iff.1 h
    simp [magnitude]
  | succ k ih =>
    rw [Bytes.capacity] at h
    rw [magnitude]
    split
    · exact Nat.zero_le _
    · exact Nat.succ_le_succ (ih (Nat.div_lt_of_lt_mul h))

/-- Bytes that leave room for the sign take no byte more with it. -/
theorem length_withSign_le (negative : Bool) {k : Nat} (hlength : bs.length ≤ k + 1)
    (hroom : Bytes.ofLittleEndian bs < 128 * Bytes.capacity k) :
    (withSign negative bs).length ≤ k + 1 := by
  obtain rfl | ⟨bs, top, rfl⟩ := List.eq_nil_or_concat' bs
  · exact Nat.zero_le _
  rw [withSign_concat]
  split
  · next hsign =>
    -- the last byte is high, so below the bound there are fewer bytes than there may be
    rw [sign_iff] at hsign
    rw [Bytes.ofLittleEndian_concat] at hroom
    have hshort : bs.length < k := by
      by_contra hlong
      have hle := Nat.mul_le_mul (Bytes.capacity_mono (Nat.le_of_not_lt hlong)) hsign
      omega
    rw [List.length_append, List.length_append]
    exact Nat.succ_le_succ hshort
  · rw [List.length_append] at hlength ⊢
    exact hlength

/-- An integer whose magnitude leaves room for the sign in `k + 1` bytes takes no more. -/
theorem length_encode_le {k : Nat} (h : n.natAbs < 128 * Bytes.capacity k) :
    (encode n).length ≤ k + 1 := by
  have hlength : (magnitude n.natAbs).length ≤ k + 1 :=
    length_magnitude_le (Nat.lt_of_lt_of_le h (Nat.mul_le_mul_right _ (by decide)))
  exact length_withSign_le _ hlength (by rwa [ofLittleEndian_magnitude])

theorem decode_concat_neg_iff (hne : decode (bs ++ [top]) ≠ 0) :
    decode (bs ++ [top]) < 0 ↔ 0x80 ≤ top := by
  rw [decode_concat] at hne ⊢
  split
  · next hsign =>
    rw [if_pos hsign] at hne
    exact iff_of_true (by omega) hsign
  · next hsign => exact iff_of_false (by omega) hsign

/-- Bytes of one length stand for different integers, unless they stand for zero. -/
theorem eq_of_decode_eq {as : Bytes} (hlength : as.length = bs.length) (h : decode as = decode bs)
    (hne : decode as ≠ 0) : as = bs := by
  obtain rfl | ⟨as, a, rfl⟩ := List.eq_nil_or_concat' as
  · exact absurd rfl hne
  obtain rfl | ⟨bs, b, rfl⟩ := List.eq_nil_or_concat' bs
  · exact absurd h hne
  have hsign : 0x80 ≤ a ↔ 0x80 ≤ b := by
    rw [← decode_concat_neg_iff hne, ← decode_concat_neg_iff (h ▸ hne), h]
  have hmagnitude := congrArg Int.natAbs h
  rw [natAbs_decode_concat, natAbs_decode_concat] at hmagnitude
  rw [List.length_append, List.length_append] at hlength
  have hbits : as ++ [a &&& 0x7f] = bs ++ [b &&& 0x7f] :=
    Bytes.ofLittleEndian_injective (by rwa [List.length_append, List.length_append]) hmagnitude
  obtain ⟨rfl, hrest⟩ := List.append_inj hbits (Nat.add_right_cancel hlength)
  rw [eq_of_unsigned_eq hsign (List.cons.inj hrest).1]

theorem encode_zero : encode 0 = [] := by
  simp [encode, magnitude, withSign]

/-- No other bytes that stand for an integer are as short as its script number. -/
theorem length_encode_lt (h : decode bs = n) (hne : bs ≠ encode n) :
    (encode n).length < bs.length := by
  subst h
  obtain rfl | ⟨init, top, rfl⟩ := List.eq_nil_or_concat' bs
  · exact absurd encode_zero.symm hne
  have hle : (encode (decode (init ++ [top]))).length ≤ init.length + 1 :=
    length_encode_le (natAbs_decode_concat_lt init top)
  rw [List.length_append]
  refine Nat.lt_of_le_of_ne hle fun hlength => hne (Eq.symm ?_)
  refine eq_of_decode_eq (by rw [hlength, List.length_append]) (decode_encode _) fun hzero => ?_
  rw [decode_encode] at hzero
  rw [hzero, encode_zero] at hlength
  cases hlength

end ScriptNumber

/-! ## Pushes -/

namespace Instruction

/-- The integer that an instruction pushes: the opcodes for -1 and for 1 to 16 stand in a row. -/
def number : Instruction → Int
  | push data => ScriptNumber.decode data
  | op code => code.toNat - 0x50
  | truncated => 0

end Instruction

namespace ScriptNumber

theorem push_of_small (h : 1 ≤ n ∧ n ≤ 16) :
    push n = [UInt8.ofNat (Opcode.one.toNat + n.toNat - 1)] := by
  rw [push, if_neg (by omega), if_pos h]

theorem push_of_large (h : n < -1 ∨ 16 < n) : push n = Script.pushData (encode n) := by
  rw [push, if_neg (by omega), if_neg (by omega), if_neg (by omega)]

/-- The push of an integer is one instruction, which pushes the integer. -/
theorem spells_push (hlength : (push n).length < 0x100000000) :
    ∃ i, Instruction.Spells i (push n) ∧ i.number = n := by
  obtain rfl | hsmall | rfl | hlarge :
      n = 0 ∨ (1 ≤ n ∧ n ≤ 16) ∨ n = -1 ∨ (n < -1 ∨ 16 < n) := by omega
  · exact ⟨.push [], .nothing, rfl⟩
  · have hone : Opcode.one.toNat = 0x51 := rfl
    have hcode : (UInt8.ofNat (Opcode.one.toNat + n.toNat - 1)).toNat = 0x50 + n.toNat := by
      rw [UInt8.toNat_ofNat', hone]
      omega
    rw [push_of_small hsmall]
    refine ⟨.op _, .op (UInt8.le_iff_toNat_le.2 ?_), ?_⟩
    · have hnegate : Opcode.negate1.toNat = 0x4f := rfl
      omega
    · rw [Instruction.number, hcode]
      omega
  · exact ⟨.op Opcode.negate1, .op (UInt8.le_refl _), rfl⟩
  · rw [push_of_large hlarge] at hlength ⊢
    rw [Script.pushData, List.length_append] at hlength
    exact ⟨.push (encode n), Instruction.spells_pushData (by omega), decode_encode n⟩

/-- A script starts with the push of one integer. -/
theorem eq_of_startsWith_push {a b : Int} {script : Bytes} (ha : (push a).length < 0x100000000)
    (hb : (push b).length < 0x100000000) (hpa : push a <+: script) (hpb : push b <+: script) :
    a = b := by
  obtain ⟨i, hi, hnumber⟩ := spells_push ha
  obtain ⟨j, hj, hnumber'⟩ := spells_push hb
  obtain ⟨rest, rfl⟩ := hpa
  obtain ⟨rest', hsame⟩ := hpb
  rw [← hnumber, ← hnumber', hj.eq_of_append hi hsame]

/-- A word of eight bytes is pushed in ten bytes at most. -/
theorem length_push_le (n : Int64) : (push n.toInt).length ≤ 10 := by
  have hencode : (encode n.toInt).length ≤ 9 := by
    have hcapacity : Bytes.capacity 8 = 0x10000000000000000 := rfl
    have hlow := n.le_toInt
    have hhigh := n.toInt_lt
    exact length_encode_le (k := 8) (by omega)
  unfold push
  split
  · exact Nat.le_add_left 1 9
  split
  · exact Nat.le_add_left 1 9
  split
  · exact Nat.le_add_left 1 9
  · rw [Script.pushData_of_short (by omega), List.length_cons]
    exact Nat.succ_le_succ hencode

/-- Heights cannot be confused, and they are written as short as can be. A script starts with the
push of one word of eight bytes at most. Every integer can be read back from its script number, and
all other bytes that stand for the integer are longer. -/
theorem push_unambiguous :
    (∀ (a b : Int64) (script : Bytes), push a.toInt <+: script → push b.toInt <+: script → a = b)
    ∧ ∀ n : Int, decode (encode n) = n
      ∧ ∀ bs, decode bs = n → bs ≠ encode n → (encode n).length < bs.length := by
  refine ⟨fun a b script ha hb => ?_, fun n => ⟨decode_encode n, fun bs => length_encode_lt⟩⟩
  have hlength (x : Int64) : (push x.toInt).length < 0x100000000 :=
    Nat.lt_of_le_of_lt (length_push_le x) (by decide)
  exact Int64.toInt_inj.1 (eq_of_startsWith_push (hlength a) (hlength b) ha hb)

/-- The least word takes a ninth byte for its sign. -/
example : encode (-0x8000000000000000) = [0, 0, 0, 0, 0, 0, 0, 0x80, 0x80] := by cbv

end ScriptNumber

end Chainstate
