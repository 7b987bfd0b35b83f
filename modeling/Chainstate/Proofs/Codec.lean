-- SUMMARY: Decoders and encoders that invert each other: words, digests, sizes, byte strings and lists.
import Chainstate.Proofs.Steps
import Chainstate.Wire.CompactSize

/-!
# Decoders that invert encoders

`Decoder.Inverts` says in one equivalence that a decoder reads a value from the front of a byte
string exactly where the string starts with the encoding of that value. Each decoder has a lemma
of this form, and the lemma of a composed decoder follows from those of its parts. What is wanted
of a format as a whole is `Canonical`: a value is read back from its encoding, nothing shorter or
longer is read, and whatever is read is written back as it was.
-/

namespace Chainstate

/-- The decoder takes the encodings of the sized values off the front of a byte string, and
nothing else. -/
def Decoder.Inverts {α : Type} (d : Decoder α) (encode : α → Bytes) (Sized : α → Prop) : Prop :=
  ∀ bs a rest, d bs = .ok a rest ↔ Sized a ∧ bs = encode a ++ rest

/-- A format in which values and byte strings determine each other. -/
structure Canonical {α : Type} (ofBytes : Bytes → Except DecodeError α) (encode : α → Bytes)
    (Sized : α → Prop) : Prop where
  roundTrip : ∀ a, Sized a → ofBytes (encode a) = .ok a
  cut : ∀ a bs, Sized a → bs <+: encode a → bs ≠ encode a → ∃ e, ofBytes bs = .error e
  extended : ∀ a bs, Sized a → encode a <+: bs → bs ≠ encode a → ∃ e, ofBytes bs = .error e
  canonical : ∀ bs a, ofBytes bs = .ok a → encode a = bs
  sized : ∀ bs a, ofBytes bs = .ok a → Sized a

/-! ## Whole byte strings -/

namespace Decoder

variable {α : Type} {d : Decoder α} {encode : α → Bytes} {Sized : α → Prop}

/-- A value takes up a whole byte string where its decoder leaves nothing of it. -/
theorem exactly_ok {bs : Bytes} {a : α} : exactly d bs = .ok a ↔ d bs = .ok a [] := by
  unfold exactly
  cases h : d bs with
  | ok b rest =>
    rw [step_bind_of_ok h]
    cases rest with
    | nil => simp [endOfInput, bind, EStateM.bind, pure, EStateM.pure]
    | cons _ _ => simp [endOfInput, bind, EStateM.bind]
  | error e rest =>
    have hrun : (do let a ← d; endOfInput; pure a : Decoder α) bs = .error e rest :=
      step_bind_error.2 (.inl h)
    rw [hrun]
    simp

/-- A prefix of which a value is left is not the encoding of another value. -/
theorem Inverts.eq_of_append (h : d.Inverts encode Sized) {a b : α} {rest : Bytes} (ha : Sized a)
    (hb : Sized b) (heq : encode a = encode b ++ rest) : a = b ∧ rest = [] := by
  have hshort : d (encode a) = .ok a [] := (h _ _ _).2 ⟨ha, by simp⟩
  have hlong : d (encode a) = .ok b rest := (h _ _ _).2 ⟨hb, heq⟩
  rw [hshort] at hlong
  cases hlong
  exact ⟨rfl, rfl⟩

theorem Inverts.exactly_ok (h : d.Inverts encode Sized) {bs : Bytes} {a : α} :
    exactly d bs = .ok a ↔ Sized a ∧ bs = encode a := by
  simp [Decoder.exactly_ok, h bs a []]

/-- A byte string that is not the encoding of a sized value is refused. -/
theorem Inverts.exactly_error (h : d.Inverts encode Sized) {bs : Bytes}
    (hne : ∀ a, Sized a → bs ≠ encode a) : ∃ e, exactly d bs = .error e := by
  cases hread : exactly d bs with
  | error e => exact ⟨e, rfl⟩
  | ok a =>
    obtain ⟨ha, heq⟩ := h.exactly_ok.1 hread
    exact absurd heq (hne a ha)

theorem Inverts.canonical (h : d.Inverts encode Sized) : Canonical (exactly d) encode Sized where
  roundTrip a ha := h.exactly_ok.2 ⟨ha, rfl⟩
  cut := by
    rintro a bs ha ⟨rest, hrest⟩ hne
    refine h.exactly_error fun b hb heq => hne ?_
    obtain ⟨-, hnil⟩ := h.eq_of_append ha hb (heq ▸ hrest.symm)
    simpa [hnil] using hrest
  extended := by
    rintro a bs ha ⟨rest, rfl⟩ hne
    refine h.exactly_error fun b hb heq => hne ?_
    obtain ⟨-, hnil⟩ := h.eq_of_append hb ha heq.symm
    simp [hnil]
  canonical _ _ hread := (h.exactly_ok.1 hread).2.symm
  sized _ _ hread := (h.exactly_ok.1 hread).1

end Decoder

/-! ## Words and digests -/

namespace Decoder

variable {bs rest : Bytes} {field : Field}

theorem take_ok {n : Nat} {a : Bytes} :
    take n field bs = .ok a rest ↔ a.length = n ∧ bs = a ++ rest := by
  unfold take
  constructor
  · intro h
    split at h
    · next hlen =>
      cases h
      exact ⟨hlen, by simp⟩
    · cases h
  · rintro ⟨rfl, rfl⟩
    simp

theorem number_ok {n k : Nat} :
    number n field bs = .ok k rest ↔ k < Bytes.capacity n ∧ bs = Bytes.littleEndian n k ++ rest := by
  simp only [number, step_bind_ok, take_ok, step_pure_ok]
  constructor
  · rintro ⟨a, _, ⟨rfl, rfl⟩, rfl, rfl⟩
    exact ⟨Bytes.ofLittleEndian_lt a, by rw [Bytes.littleEndian_ofLittleEndian]⟩
  · rintro ⟨hk, rfl⟩
    refine ⟨_, rest, ⟨Bytes.length_littleEndian n k, rfl⟩, ?_, rfl⟩
    rw [Bytes.ofLittleEndian_littleEndian, Nat.mod_eq_of_lt hk]

theorem u8_ok {b : UInt8} : u8 bs = .ok b rest ↔ bs = b :: rest := by
  simp only [u8, step_bind_ok, number_ok, step_pure_ok]
  constructor
  · rintro ⟨k, _, ⟨-, rfl⟩, rfl, rfl⟩
    simp [Bytes.littleEndian]
  · rintro rfl
    exact ⟨b.toNat, rest, ⟨b.toNat_lt, by simp [Bytes.littleEndian]⟩, by simp, rfl⟩

/-- A number of four bytes read as a word, in whatever way the word is a number. -/
theorem u32_ok {x : UInt32} : u32 bs = .ok x rest ↔ bs = Encode.u32 x ++ rest := by
  simp only [u32, step_bind_ok, number_ok, step_pure_ok, Encode.u32]
  constructor
  · rintro ⟨k, _, ⟨hk, rfl⟩, rfl, rfl⟩
    rw [UInt32.toNat_ofNat_of_lt' hk]
  · rintro rfl
    exact ⟨x.toNat, rest, ⟨x.toNat_lt, rfl⟩, by simp, rfl⟩

theorem i32_ok {x : Int32} : i32 bs = .ok x rest ↔ bs = Encode.i32 x ++ rest := by
  simp only [i32, step_bind_ok, number_ok, step_pure_ok, Encode.i32]
  constructor
  · rintro ⟨k, _, ⟨hk, rfl⟩, rfl, rfl⟩
    rw [UInt32.toUInt32_toInt32, UInt32.toNat_ofNat_of_lt' hk]
  · rintro rfl
    exact ⟨x.toUInt32.toNat, rest, ⟨x.toUInt32.toNat_lt, rfl⟩, by simp, rfl⟩

theorem i64_ok {x : Int64} : i64 bs = .ok x rest ↔ bs = Encode.i64 x ++ rest := by
  simp only [i64, step_bind_ok, number_ok, step_pure_ok, Encode.i64]
  constructor
  · rintro ⟨k, _, ⟨hk, rfl⟩, rfl, rfl⟩
    rw [UInt64.toUInt64_toInt64, UInt64.toNat_ofNat_of_lt' hk]
  · rintro rfl
    exact ⟨x.toUInt64.toNat, rest, ⟨x.toUInt64.toNat_lt, rfl⟩, by simp, rfl⟩

theorem digest_ok {x : Digest} : digest bs = .ok x rest ↔ bs = x.bytes ++ rest := by
  unfold digest
  constructor
  · intro h
    split at h
    · cases h
      simp
    · cases h
  · rintro rfl
    have htake : (x.bytes ++ rest).take 32 = x.bytes := by
      rw [← x.length_bytes, List.take_left]
    have hdrop : (x.bytes ++ rest).drop 32 = rest := by
      rw [← x.length_bytes, List.drop_left]
    simp [htake, hdrop, x.length_bytes]

end Decoder

/-! ## Sizes -/

namespace CompactSize

variable {bs rest : Bytes}

theorem accept_ok {least n m : Nat} :
    accept least n bs = .ok m rest ↔ (least ≤ n ∧ n ≤ maxSize) ∧ n = m ∧ bs = rest := by
  unfold accept
  by_cases hleast : n < least
  · simp [hleast, Nat.not_le.2 hleast]
  · by_cases hmax : maxSize < n
    · simp [hleast, hmax, Nat.not_le.2 hmax]
    · simp [hleast, hmax, Nat.not_lt.1 hleast, Nat.not_lt.1 hmax]

/-- A size after its marker takes a fixed number of bytes. -/
theorem accept_number_ok {width least n : Nat} {field : Field} :
    (Decoder.number width field >>= fun k => accept least k) bs = .ok n rest ↔
      (least ≤ n ∧ n < Bytes.capacity width ∧ n ≤ maxSize) ∧
        bs = Bytes.littleEndian width n ++ rest := by
  simp only [step_bind_ok, Decoder.number_ok, accept_ok]
  constructor
  · rintro ⟨k, _, ⟨hk, rfl⟩, ⟨hleast, hmax⟩, rfl, rfl⟩
    exact ⟨⟨hleast, hk, hmax⟩, rfl⟩
  · rintro ⟨⟨hleast, hk, hmax⟩, rfl⟩
    exact ⟨n, rest, ⟨hk, rfl⟩, ⟨hleast, hmax⟩, rfl, rfl⟩

/-- Each number has one form: the marker says in which of four ranges the size lies, and the
encoder chooses its marker by the same ranges. -/
theorem decode_ok {n : Nat} : decode bs = .ok n rest ↔ n ≤ maxSize ∧ bs = encode n ++ rest := by
  simp only [decode, step_bind_ok, Decoder.u8_ok]
  have hcapacity : Bytes.capacity 2 = 0x10000 ∧ Bytes.capacity 4 = 0x100000000 := by decide
  constructor
  · rintro ⟨marker, _, rfl, h⟩
    have hmarker : marker = UInt8.ofNat marker.toNat := by simp
    split at h
    · next hsmall =>
      obtain ⟨⟨-, hmax⟩, rfl, rfl⟩ := accept_ok.1 h
      exact ⟨hmax, by simp [encode, hsmall]⟩
    split at h
    · next htag =>
      obtain ⟨⟨hleast, hk, hmax⟩, rfl⟩ := accept_number_ok.1 h
      rw [htag] at hmarker
      exact ⟨hmax, by simp [encode, hmarker, show ¬n ≤ 0xfc by omega, show n ≤ 0xffff by omega]⟩
    split at h
    · next htag =>
      obtain ⟨⟨hleast, hk, hmax⟩, rfl⟩ := accept_number_ok.1 h
      rw [htag] at hmarker
      exact ⟨hmax, by simp [encode, hmarker, show ¬n ≤ 0xfc by omega, show ¬n ≤ 0xffff by omega,
        show n ≤ 0xffffffff by omega]⟩
    · -- a size of eight bytes is above the limit
      obtain ⟨⟨hleast, -, hmax⟩, -⟩ := accept_number_ok.1 h
      unfold maxSize at hmax
      omega
  · rintro ⟨hmax, rfl⟩
    have hlimit : n ≤ 0x02000000 := hmax
    by_cases hone : n ≤ 0xfc
    · have htoNat : (UInt8.ofNat n).toNat = n := by
        simp only [UInt8.toNat_ofNat']
        omega
      refine ⟨UInt8.ofNat n, rest, by simp [encode, hone], ?_⟩
      rw [htoNat, if_pos hone]
      exact accept_ok.2 ⟨⟨Nat.zero_le n, hmax⟩, rfl, rfl⟩
    by_cases htwo : n ≤ 0xffff
    · refine ⟨0xfd, Bytes.littleEndian 2 n ++ rest, by simp [encode, hone, htwo], ?_⟩
      rw [if_neg (by decide), if_pos (by decide)]
      exact accept_number_ok.2 ⟨⟨by omega, by omega, hmax⟩, rfl⟩
    · refine ⟨0xfe, Bytes.littleEndian 4 n ++ rest,
        by simp [encode, hone, htwo, show n ≤ 0xffffffff by omega], ?_⟩
      rw [if_neg (by decide), if_neg (by decide), if_pos (by decide)]
      exact accept_number_ok.2 ⟨⟨by omega, by omega, hmax⟩, rfl⟩

end CompactSize

theorem VarBytes.decode_ok {bs rest data : Bytes} :
    VarBytes.decode bs = .ok data rest ↔
      data.length ≤ CompactSize.maxSize ∧ bs = VarBytes.encode data ++ rest := by
  simp only [VarBytes.decode, step_bind_ok, CompactSize.decode_ok, Decoder.take_ok]
  constructor
  · rintro ⟨_, _, ⟨hmax, rfl⟩, rfl, rfl⟩
    exact ⟨hmax, by simp [VarBytes.encode]⟩
  · rintro ⟨hmax, rfl⟩
    exact ⟨_, _, ⟨hmax, by simp [VarBytes.encode]⟩, rfl, rfl⟩

/-! ## Lists -/

/-- A list that can be written: its length and its elements are within the limits. -/
def SizedList {α : Type} (Sized : α → Prop) (as : List α) : Prop :=
  as.length ≤ CompactSize.maxSize ∧ ∀ a ∈ as, Sized a

section Lists

variable {α : Type} {d : Decoder α} {encode : α → Bytes} {Sized : α → Prop}

theorem Decoder.replicate_ok (h : d.Inverts encode Sized) {n : Nat} {as : List α}
    {bs rest : Bytes} :
    d.replicate n bs = .ok as rest ↔
      (as.length = n ∧ ∀ a ∈ as, Sized a) ∧ bs = as.flatMap encode ++ rest := by
  induction n generalizing as bs rest with
  | zero =>
    simp only [Decoder.replicate, step_pure_ok]
    constructor
    · rintro ⟨rfl, rfl⟩
      simp
    · rintro ⟨⟨hlen, -⟩, rfl⟩
      simp [List.length_eq_zero_iff.1 hlen]
  | succ n ih =>
    simp only [Decoder.replicate, step_bind_ok, h _ _ _, ih, step_pure_ok]
    constructor
    · rintro ⟨a, _, ⟨ha, rfl⟩, as, _, ⟨⟨rfl, has⟩, rfl⟩, rfl, rfl⟩
      exact ⟨⟨rfl, List.forall_mem_cons.2 ⟨ha, has⟩⟩, by simp⟩
    · rintro ⟨⟨hlen, hsized⟩, rfl⟩
      obtain ⟨a, as, rfl⟩ := List.exists_cons_of_length_eq_add_one hlen
      have hcons := List.forall_mem_cons.1 hsized
      exact ⟨a, _, ⟨hcons.1, by simp⟩, as, rest, ⟨⟨by simpa using hlen, hcons.2⟩, rfl⟩, rfl, rfl⟩

theorem decodeList_ok (h : d.Inverts encode Sized) {as : List α} {bs rest : Bytes} :
    decodeList d bs = .ok as rest ↔ SizedList Sized as ∧ bs = encodeList encode as ++ rest := by
  simp only [decodeList, step_bind_ok, CompactSize.decode_ok, Decoder.replicate_ok h]
  constructor
  · rintro ⟨_, _, ⟨hmax, rfl⟩, ⟨rfl, hsized⟩, rfl⟩
    exact ⟨⟨hmax, hsized⟩, by simp [encodeList]⟩
  · rintro ⟨⟨hmax, hsized⟩, rfl⟩
    exact ⟨_, _, ⟨hmax, by simp [encodeList]⟩, ⟨rfl, hsized⟩, rfl⟩

end Lists

end Chainstate
