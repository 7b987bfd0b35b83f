-- SUMMARY: Compact targets: what they stand for, and how little of a target their form loses.
import Chainstate.Target
import Mathlib.Algebra.Group.Nat.Defs
import Mathlib.Order.Bounds.Defs

/-!
# Compact targets

A compact target with the mantissa `word` and the exponent `size` stands for
`word * 256 ^ size / 256 ^ 3`, and the compact form of a target has the mantissa
`target * 256 ^ 3 / 256 ^ size`. The exponent is the one at which that mantissa is below `0x800000`,
the sign bit, but not below `0x8000`, so no other exponent keeps more of the target.

Main statement: a target below `2 ^ 256` that is written and read back becomes the greatest value up
to it that has a compact form (`decode_ofTarget_isGreatest`).
-/

namespace Chainstate

namespace CompactTarget

/-! ## Shifts by whole bytes -/

theorem shiftLeft_eq_scale {a b : Nat} (h : b ≤ a) (n : Nat) :
    n <<< (8 * (a - b)) = n * 256 ^ a / 256 ^ b := by
  obtain ⟨k, rfl⟩ := Nat.exists_eq_add_of_le h
  have hpow : (2 : Nat) ^ (8 * k) = 256 ^ k := Nat.pow_mul 2 8 k
  rw [Nat.add_sub_cancel_left, Nat.shiftLeft_eq, hpow, Nat.pow_add, Nat.mul_left_comm,
    Nat.mul_div_cancel_left _ (Nat.pow_pos (by decide))]

theorem shiftRight_eq_scale {a b : Nat} (h : a ≤ b) (n : Nat) :
    n >>> (8 * (b - a)) = n * 256 ^ a / 256 ^ b := by
  obtain ⟨k, rfl⟩ := Nat.exists_eq_add_of_le h
  have hpow : (2 : Nat) ^ (8 * k) = 256 ^ k := Nat.pow_mul 2 8 k
  rw [Nat.add_sub_cancel_left, Nat.shiftRight_eq_div_pow, hpow, Nat.pow_add,
    Nat.mul_comm n, Nat.mul_div_mul_left _ _ (Nat.pow_pos (by decide))]

/-! ## Reading -/

/-- What is written, its sign apart: the magnitude times `256 ^ (exponent - 3)`, rounded down. -/
def value (c : CompactTarget) : Nat := c.magnitude * 256 ^ c.exponent / 256 ^ 3

theorem magnitude_lt (c : CompactTarget) : c.magnitude < 0x800000 := Nat.mod_lt _ (by decide)

/-- The value has 256 bits where the magnitude leaves the bytes above the 32nd empty. -/
theorem value_lt_iff (c : CompactTarget) :
    c.value < 2 ^ 256 ↔ ¬(c.magnitude ≠ 0 ∧ (34 < c.exponent
      ∨ (0xff < c.magnitude ∧ 33 < c.exponent) ∨ (0xffff < c.magnitude ∧ 32 < c.exponent))) := by
  have hmagnitude := c.magnitude_lt
  have hbound : c.value < 2 ^ 256 ↔ c.magnitude * 256 ^ c.exponent < 256 ^ 35 := by
    have hscale : (2 : Nat) ^ 256 * 256 ^ 3 = 256 ^ 35 := by decide
    rw [value, Nat.div_lt_iff_lt_mul (by decide), hscale]
  rw [hbound]
  rcases Nat.lt_or_ge c.exponent 35 with hsmall | hlarge
  · -- The magnitude may take the bytes that are left of 35.
    have hpow : (256 : Nat) ^ 35 = 256 ^ (35 - c.exponent) * 256 ^ c.exponent := by
      rw [← Nat.pow_add, Nat.sub_add_cancel (Nat.le_of_lt hsmall)]
    rw [hpow, Nat.mul_lt_mul_right (Nat.pow_pos (by decide))]
    rcases Nat.lt_or_ge 32 c.exponent with hhigh | hlow
    · obtain heq | heq : c.exponent = 33 ∨ c.exponent = 34 := by omega
      · rw [heq]
        omega
      · rw [heq]
        omega
    · have hthree : (256 : Nat) ^ 3 ≤ 256 ^ (35 - c.exponent) :=
        Nat.pow_le_pow_right (by decide) (by omega)
      omega
  · have hpow : (256 : Nat) ^ 35 ≤ 256 ^ c.exponent := Nat.pow_le_pow_right (by decide) hlarge
    by_cases hzero : c.magnitude = 0
    · simp [hzero]
    · have hle := Nat.le_mul_of_pos_left (256 ^ c.exponent) (Nat.pos_of_ne_zero hzero)
      omega

theorem decode_eq_ok_iff {c : CompactTarget} {v : Nat} :
    c.decode = .ok v
      ↔ (c.signBit = false ∨ c.magnitude = 0) ∧ c.value < 2 ^ 256 ∧ v = c.value := by
  have hshift : (if c.exponent ≤ 3 then
        (.ok (c.magnitude >>> (8 * (3 - c.exponent))) : Except CompactError Nat)
      else .ok (c.magnitude <<< (8 * (c.exponent - 3)))) = .ok c.value := by
    split
    · next hle => rw [shiftRight_eq_scale hle, value]
    · next hgt => rw [shiftLeft_eq_scale (Nat.le_of_not_le hgt), value]
  simp only [decode, hshift, value_lt_iff]
  split
  · next hsign => simp [hsign]
  · next hsign =>
    have hclear : c.signBit = false ∨ c.magnitude = 0 := by
      rw [Decidable.not_and_iff_or_not, Decidable.not_not, Bool.not_eq_true] at hsign
      exact hsign.symm
    split
    · next hlarge =>
      constructor
      · intro h
        cases h
      · rintro ⟨-, hfits, -⟩
        exact absurd hlarge hfits
    · next hfits =>
      constructor
      · intro h
        exact ⟨hclear, hfits, (Except.ok.inj h).symm⟩
      · rintro ⟨-, -, rfl⟩
        rfl

theorem decode_lt {c : CompactTarget} {v : Nat} (h : c.decode = .ok v) : v < 2 ^ 256 := by
  obtain ⟨-, hlt, rfl⟩ := decode_eq_ok_iff.1 h
  exact hlt

/-- The compact target with a mantissa and an exponent. -/
def pack (word size : Nat) : CompactTarget := ⟨UInt32.ofNat (word + size <<< 24)⟩

theorem toNat_bits_pack {word size : Nat} (hword : word < 0x800000) (hsize : size < 256) :
    (pack word size).bits.toNat = word + size * 0x1000000 := by
  simp only [pack, UInt32.toNat_ofNat', Nat.shiftLeft_eq]
  omega

/-- A mantissa without its sign bit is read as it is, unless it would take more than 32 bytes. -/
theorem decode_pack {word size : Nat} (hword : word < 0x800000) (hsize : size < 256)
    (hfits : word * 256 ^ size / 256 ^ 3 < 2 ^ 256) :
    (pack word size).decode = .ok (word * 256 ^ size / 256 ^ 3) := by
  have hbits := toNat_bits_pack hword hsize
  have hexponent : (pack word size).exponent = size := by
    rw [exponent, hbits, Nat.shiftRight_eq_div_pow]
    omega
  have hmagnitude : (pack word size).magnitude = word := by
    rw [magnitude, hbits]
    omega
  have hsign : (pack word size).signBit = false := by
    rw [signBit, hbits, Nat.testBit_eq_decide_div_mod_eq]
    exact decide_eq_false (by omega)
  have hvalue : (pack word size).value = word * 256 ^ size / 256 ^ 3 := by
    rw [value, hexponent, hmagnitude]
  exact decode_eq_ok_iff.2 ⟨.inl hsign, by rw [hvalue]; exact hfits, hvalue.symm⟩

/-! ## Writing -/

theorem lt_pow_byteLength (n : Nat) : n < 256 ^ byteLength n := by
  unfold byteLength
  split
  · next hzero => simp [hzero]
  · have hlog : n < 2 ^ (n.log2 + 1) := Nat.lt_log2_self
    have hpow : (2 : Nat) ^ (8 * (n.log2 / 8 + 1)) = 256 ^ (n.log2 / 8 + 1) := Nat.pow_mul 2 8 _
    have hle : (2 : Nat) ^ (n.log2 + 1) ≤ 2 ^ (8 * (n.log2 / 8 + 1)) :=
      Nat.pow_le_pow_right (by decide) (by omega)
    omega

theorem pow_byteLength_le {n : Nat} (h : n ≠ 0) : 256 ^ byteLength n ≤ n * 256 := by
  rw [byteLength, if_neg h, Nat.pow_succ]
  have hlog : 2 ^ n.log2 ≤ n := Nat.log2_self_le h
  have hpow : (2 : Nat) ^ (8 * (n.log2 / 8)) = 256 ^ (n.log2 / 8) := Nat.pow_mul 2 8 _
  have hle : (2 : Nat) ^ (8 * (n.log2 / 8)) ≤ 2 ^ n.log2 :=
    Nat.pow_le_pow_right (by decide) (by omega)
  omega

theorem byteLength_le {n : Nat} (h : n < 2 ^ 256) : byteLength n ≤ 32 := by
  unfold byteLength
  split
  · omega
  · next hne =>
    have := (Nat.log2_lt hne).2 h
    omega

/-- A target that is shifted to three bytes is scaled by its own length. -/
theorem word_eq_scale (target : Nat) :
    (if byteLength target ≤ 3 then target <<< (8 * (3 - byteLength target))
      else target >>> (8 * (byteLength target - 3)))
      = target * 256 ^ 3 / 256 ^ byteLength target := by
  split
  · next hle => exact shiftLeft_eq_scale hle target
  · next hgt => exact shiftRight_eq_scale (Nat.le_of_not_le hgt) target

/-- At the exponent `size` the mantissa of a target has no sign bit, and has lost no leading byte
that would fit beside it. -/
structure Normal (target size : Nat) : Prop where
  mantissa_lt : target * 256 ^ 3 / 256 ^ size < 0x800000
  le_mantissa : target ≠ 0 → 0x8000 ≤ target * 256 ^ 3 / 256 ^ size

/-- The mantissa and the exponent of a target's compact form. The exponent is the number of bytes
of the target, or one more where the mantissa would start with a sign bit. -/
theorem ofTarget_eq_pack (target : Nat) :
    ∃ size, ofTarget target = pack (target * 256 ^ 3 / 256 ^ size) size ∧ Normal target size
      ∧ size ≤ byteLength target + 1 := by
  have hthree : target * 256 ^ 3 / 256 ^ byteLength target < 256 ^ 3 := by
    apply Nat.div_lt_of_lt_mul
    exact Nat.mul_lt_mul_of_pos_right (lt_pow_byteLength target) (by decide)
  simp only [ofTarget, word_eq_scale]
  split
  · next hsmall =>
    refine ⟨byteLength target, rfl, ⟨hsmall, fun hne => ?_⟩, Nat.le_succ _⟩
    rw [Nat.le_div_iff_mul_le (Nat.pow_pos (by decide))]
    have hbytes := pow_byteLength_le hne
    omega
  · next hlarge =>
    have hnext : target * 256 ^ 3 / 256 ^ byteLength target / 256
        = target * 256 ^ 3 / 256 ^ (byteLength target + 1) := by
      rw [Nat.div_div_eq_div_mul, ← Nat.pow_succ]
    refine ⟨byteLength target + 1, by rw [pack, hnext], ⟨?_, fun _ => ?_⟩, Nat.le_refl _⟩
    · omega
    · omega

/-- There is one such exponent: the next one has a mantissa 256 times smaller. -/
theorem Normal.unique {target a b : Nat} (hne : target ≠ 0) (ha : Normal target a)
    (hb : Normal target b) : a = b := by
  have hnotlt {a b : Nat} (ha : Normal target a) (hb : Normal target b) : ¬a < b := by
    intro hlt
    have hpow : 256 ^ a * 256 ≤ 256 ^ b := by
      rw [← Nat.pow_succ]
      exact Nat.pow_le_pow_right (by decide) hlt
    have hle : target * 256 ^ 3 / 256 ^ b ≤ target * 256 ^ 3 / 256 ^ a / 256 := by
      rw [Nat.div_div_eq_div_mul]
      exact Nat.div_le_div_left hpow (Nat.mul_pos (Nat.pow_pos (by decide)) (by decide))
    have hlow := hb.le_mantissa hne
    have hhigh := ha.mantissa_lt
    omega
  exact Nat.le_antisymm (Nat.not_lt.1 (hnotlt hb ha)) (Nat.not_lt.1 (hnotlt ha hb))

/-! ## Rounding -/

/-- A target with its mantissa cut off at the exponent `size`. -/
def truncate (target size : Nat) : Nat := target * 256 ^ 3 / 256 ^ size * 256 ^ size / 256 ^ 3

theorem truncate_le (target size : Nat) : truncate target size ≤ target := by
  apply Nat.div_le_of_le_mul
  rw [Nat.mul_comm (256 ^ 3)]
  exact Nat.div_mul_le_self _ _

/-- Up to three bytes nothing is cut off. -/
theorem truncate_of_le {size : Nat} (h : size ≤ 3) (target : Nat) :
    truncate target size = target := by
  have hpow : (256 : Nat) ^ 3 = 256 ^ (3 - size) * 256 ^ size := by
    rw [← Nat.pow_add, Nat.sub_add_cancel h]
  have hpos : 0 < 256 ^ size := Nat.pow_pos (by decide)
  rw [truncate, hpow, ← Nat.mul_assoc, Nat.mul_div_cancel _ hpos, Nat.mul_assoc, ← hpow,
    Nat.mul_div_cancel _ (by decide)]

theorem scale_of_ge {size : Nat} (h : 3 ≤ size) (word : Nat) :
    word * 256 ^ size / 256 ^ 3 = word * 256 ^ (size - 3) := by
  rw [← Nat.sub_add_cancel h, Nat.pow_add, ← Nat.mul_assoc, Nat.mul_div_cancel _ (by decide),
    Nat.add_sub_cancel]

/-- The mantissa of what is left is that of the target. -/
theorem mantissa_truncate (target size : Nat) :
    truncate target size * 256 ^ 3 / 256 ^ size = target * 256 ^ 3 / 256 ^ size := by
  rcases Nat.le_total size 3 with hle | hge
  · rw [truncate_of_le hle]
  · rw [truncate, scale_of_ge hge, Nat.mul_assoc, ← Nat.pow_add, Nat.sub_add_cancel hge,
      Nat.mul_div_cancel _ (Nat.pow_pos (by decide))]

/-- No compact target stands for more than what is left, unless it exceeds the target. -/
theorem value_le_truncate {target size : Nat} (h : Normal target size) {c : CompactTarget}
    (hc : c.value ≤ target) : c.value ≤ truncate target size := by
  by_cases hzero : target = 0
  · subst hzero
    omega
  rcases Nat.lt_or_ge size 4 with hsmall | hlarge
  · rw [truncate_of_le (by omega)]
    exact hc
  have hsize : 3 ≤ size := by omega
  rw [truncate, scale_of_ge hsize]
  rcases Nat.lt_or_ge c.exponent size with hbelow | habove
  · -- A smaller exponent has too few bytes, even with the largest mantissa.
    have hpow : (256 : Nat) ^ c.exponent ≤ 256 ^ (size - 4) * 256 ^ 3 := by
      rw [← Nat.pow_add]
      exact Nat.pow_le_pow_right (by decide) (by omega)
    calc c.value ≤ 0x800000 * (256 ^ (size - 4) * 256 ^ 3) / 256 ^ 3 :=
          Nat.div_le_div_right (Nat.mul_le_mul (Nat.le_of_lt c.magnitude_lt) hpow)
      _ = 0x8000 * 256 ^ (size - 4 + 1) := by
          rw [← Nat.mul_assoc, Nat.mul_div_cancel _ (by decide), Nat.pow_succ]
          omega
      _ = 0x8000 * 256 ^ (size - 3) := by rw [show size - 4 + 1 = size - 3 by omega]
      _ ≤ target * 256 ^ 3 / 256 ^ size * 256 ^ (size - 3) :=
          Nat.mul_le_mul_right _ (h.le_mantissa hzero)
  · -- A greater one is a multiple of the same unit.
    have hvalue : c.value = c.magnitude * 256 ^ (c.exponent - size) * 256 ^ (size - 3) := by
      rw [value, scale_of_ge (by omega), Nat.mul_assoc, ← Nat.pow_add]
      congr 2
      omega
    rw [hvalue] at hc ⊢
    apply Nat.mul_le_mul_right
    rw [Nat.le_div_iff_mul_le (Nat.pow_pos (by decide))]
    calc c.magnitude * 256 ^ (c.exponent - size) * 256 ^ size
        = c.magnitude * 256 ^ (c.exponent - size) * 256 ^ (size - 3) * 256 ^ 3 := by
          rw [Nat.mul_assoc _ (256 ^ (size - 3)), ← Nat.pow_add, Nat.sub_add_cancel hsize]
      _ ≤ target * 256 ^ 3 := Nat.mul_le_mul_right _ hc

/-- The compact form of a target reads back as the target cut off at its exponent. -/
theorem exists_decode_ofTarget {target : Nat} (h : target < 2 ^ 256) :
    ∃ size, Normal target size ∧ ofTarget target = pack (target * 256 ^ 3 / 256 ^ size) size
      ∧ (ofTarget target).decode = .ok (truncate target size) := by
  obtain ⟨size, heq, hnormal, hsize⟩ := ofTarget_eq_pack target
  have hlength := byteLength_le h
  have hfits : truncate target size < 2 ^ 256 := Nat.lt_of_le_of_lt (truncate_le target size) h
  refine ⟨size, hnormal, heq, ?_⟩
  rw [heq]
  exact decode_pack hnormal.mantissa_lt (by omega) hfits

/-- A target that is written in compact form and read back is the greatest value up to it that can
be read at all. -/
theorem isGreatest_of_decode_ofTarget {target v : Nat} (h : target < 2 ^ 256)
    (hv : (ofTarget target).decode = .ok v) :
    IsGreatest {x | x ≤ target ∧ ∃ c : CompactTarget, c.decode = .ok x} v := by
  obtain ⟨size, hnormal, -, hdecode⟩ := exists_decode_ofTarget h
  obtain rfl : truncate target size = v := Except.ok.inj (hdecode.symm.trans hv)
  refine ⟨⟨truncate_le target size, _, hdecode⟩, ?_⟩
  rintro x ⟨hx, c, hc⟩
  obtain ⟨-, -, rfl⟩ := decode_eq_ok_iff.1 hc
  exact value_le_truncate hnormal hx

/-- A target that is written in compact form and read back is never larger than before, and is
zero only where it was. -/
theorem decode_ofTarget {target : Nat} (h : target < 2 ^ 256) :
    ∃ target', (ofTarget target).decode = .ok target' ∧ target' ≤ target
      ∧ (target ≠ 0 → target' ≠ 0) := by
  obtain ⟨size, -, -, hdecode⟩ := exists_decode_ofTarget h
  have hgreatest := isGreatest_of_decode_ofTarget h hdecode
  refine ⟨_, hdecode, hgreatest.1.1, fun hne => ?_⟩
  have hone : (pack 1 3).decode = .ok 1 := rfl
  exact Nat.ne_of_gt (hgreatest.2 ⟨Nat.pos_of_ne_zero hne, _, hone⟩)

/-- What has been written and read back has the compact form that was written. -/
theorem ofTarget_of_decode_ofTarget {target v : Nat} (h : target < 2 ^ 256)
    (hv : (ofTarget target).decode = .ok v) : ofTarget v = ofTarget target := by
  obtain ⟨size, hnormal, heq, hdecode⟩ := exists_decode_ofTarget h
  obtain rfl : truncate target size = v := Except.ok.inj (hdecode.symm.trans hv)
  obtain ⟨size', heq', hnormal', -⟩ := ofTarget_eq_pack (truncate target size)
  by_cases hzero : truncate target size = 0
  · have htarget : target = 0 := by
      refine Decidable.byContradiction fun hne => ?_
      obtain ⟨v, hv', -, hpos⟩ := decode_ofTarget h
      rw [hv, hzero, Except.ok.injEq] at hv'
      exact hpos hne hv'.symm
    rw [hzero, htarget]
  · have hsame : Normal (truncate target size) size := by
      constructor
      · rw [mantissa_truncate]
        exact hnormal.mantissa_lt
      · rw [mantissa_truncate]
        exact fun _ => hnormal.le_mantissa fun htarget => hzero (by simp [truncate, htarget])
    rw [heq', heq, hsame.unique hzero hnormal', mantissa_truncate]

/-- Compact targets round down to the best value they can hold. Reading gives the magnitude scaled
by the exponent, unless the sign bit of a magnitude is set or the value has more than 256 bits. A
target that is written and read back becomes the greatest value up to it that any compact target is
read as. Writing it again therefore changes nothing, a larger target never becomes a smaller value,
and a value that has been read is kept. -/
theorem decode_ofTarget_isGreatest :
    (∀ (c : CompactTarget) (v : Nat), c.decode = .ok v
      ↔ (c.signBit = false ∨ c.magnitude = 0) ∧ c.value < 2 ^ 256 ∧ v = c.value)
    ∧ (∀ target < 2 ^ 256, ∃ v, (ofTarget target).decode = .ok v
      ∧ IsGreatest {x | x ≤ target ∧ ∃ c : CompactTarget, c.decode = .ok x} v
      ∧ ofTarget v = ofTarget target)
    ∧ (∀ s t v w : Nat, s ≤ t → t < 2 ^ 256 → (ofTarget s).decode = .ok v →
      (ofTarget t).decode = .ok w → v ≤ w)
    ∧ ∀ (c : CompactTarget) (v : Nat), c.decode = .ok v → (ofTarget v).decode = .ok v := by
  refine ⟨fun c v => decode_eq_ok_iff, ?_, ?_, ?_⟩
  · intro target h
    obtain ⟨v, hv, -⟩ := decode_ofTarget h
    exact ⟨v, hv, isGreatest_of_decode_ofTarget h hv, ofTarget_of_decode_ofTarget h hv⟩
  · intro s t v w hle ht hv hw
    have hgreatest := isGreatest_of_decode_ofTarget ht hw
    have hbelow := (isGreatest_of_decode_ofTarget (Nat.lt_of_le_of_lt hle ht) hv).1.1
    exact hgreatest.2 ⟨Nat.le_trans hbelow hle, _, hv⟩
  · intro c v hc
    have hlt := decode_lt hc
    obtain ⟨w, hw, -⟩ := decode_ofTarget hlt
    have hgreatest := isGreatest_of_decode_ofTarget hlt hw
    have heq : w = v := Nat.le_antisymm hgreatest.1.1 (hgreatest.2 ⟨Nat.le_refl v, c, hc⟩)
    rw [hw, heq]

/-- The largest target keeps two bytes, at an exponent beyond its own length; a smaller one becomes
a smaller value; and a single byte is read from a mantissa that is shifted to the right. -/
theorem decode_ofTarget_isGreatest_signed :
    (ofTarget (2 ^ 256 - 1)).decode = .ok (0xffff * 256 ^ 30)
    ∧ IsGreatest {x | x ≤ 2 ^ 256 - 1 ∧ ∃ c : CompactTarget, c.decode = .ok x} (0xffff * 256 ^ 30)
    ∧ (ofTarget 0x92345678).decode = .ok 0x92340000 ∧ 0x92340000 ≤ 0xffff * 256 ^ 30
    ∧ (⟨0x01123456⟩ : CompactTarget).decode = .ok 0x12 ∧ (ofTarget 0x12).decode = .ok 0x12 := by
  obtain ⟨-, hgreatest, hmono, hkept⟩ := decode_ofTarget_isGreatest
  have hlargest : (ofTarget (2 ^ 256 - 1)).decode = .ok (0xffff * 256 ^ 30) := by rfl
  have hsmaller : (ofTarget 0x92345678).decode = .ok 0x92340000 := by rfl
  have hbyte : (⟨0x01123456⟩ : CompactTarget).decode = .ok 0x12 := by rfl
  obtain ⟨v, hv, hv', -⟩ := hgreatest (2 ^ 256 - 1) (by decide)
  obtain rfl : v = 0xffff * 256 ^ 30 := Except.ok.inj (hv.symm.trans hlargest)
  exact ⟨hlargest, hv', hsmaller,
    hmono 0x92345678 (2 ^ 256 - 1) _ _ (by decide) (by decide) hsmaller hlargest,
    hbyte, hkept _ _ hbyte⟩

end CompactTarget

end Chainstate
