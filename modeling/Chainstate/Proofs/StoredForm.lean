-- SUMMARY: The stored form of coins, undo records, stake records and tips is canonical.
import Chainstate.Proofs.WireForm
import Chainstate.Store.Rows
import Mathlib.Tactic.IntervalCases

/-!
# Stored forms

Stored values have optional parts that flags or markers announce. A number below eight is the same
as three flags, and a marker byte is the same as the presence of what follows it, so these formats
are canonical for the same reason as the wire form is. Heights are stored in four bytes.
-/

namespace Chainstate

/-! ## Flags -/

/-- A number below eight is the sum of its three bits. -/
theorem toNat_bits {n : Nat} (h : n < 8) :
    (decide (n % 2 = 1)).toNat + 2 * (decide (n / 2 % 2 = 1)).toNat
      + 4 * (decide (n / 4 % 2 = 1)).toNat = n := by
  interval_cases n <;> rfl

/-- The sum of three bits has them for its bits. -/
theorem bits_toNat (a b c : Bool) {n : Nat} (h : n = a.toNat + 2 * b.toNat + 4 * c.toNat) :
    n < 8 ∧ decide (n % 2 = 1) = a ∧ decide (n / 2 % 2 = 1) = b ∧ decide (n / 4 % 2 = 1) = c := by
  subst h
  cases a <;> cases b <;> cases c <;> decide

/-! ## Coins -/

/-- A word that is read only where a flag announces it. -/
theorem optional_u32_ok {α : Type} {p : Prop} [Decidable p] {k : Option UInt32 → Decoder α}
    {bs rest : Bytes} {a : α} :
    (if p then Decoder.u32 >>= fun x => pure (some x) >>= k else pure none >>= k) bs = .ok a rest ↔
      ∃ x rest', decide p = x.isSome ∧ bs = x.elim [] Encode.u32 ++ rest' ∧
        k x rest' = .ok a rest := by
  by_cases hp : p
  · simp only [hp, if_true, decide_true, step_bind_ok, Decoder.u32_ok, step_pure_ok]
    constructor
    · rintro ⟨x, rest', rfl, _, _, ⟨rfl, rfl⟩, h⟩
      exact ⟨some x, rest', rfl, rfl, h⟩
    · rintro ⟨x, rest', hsome, rfl, h⟩
      obtain ⟨x, rfl⟩ := Option.isSome_iff_exists.1 hsome.symm
      exact ⟨x, rest', rfl, some x, rest', ⟨rfl, rfl⟩, h⟩
  · simp only [hp, if_false, decide_false, step_bind_ok, step_pure_ok]
    constructor
    · rintro ⟨_, _, ⟨rfl, rfl⟩, h⟩
      exact ⟨none, bs, rfl, rfl, h⟩
    · rintro ⟨x, rest', hnone, rfl, h⟩
      cases x with
      | none => exact ⟨none, rest', ⟨rfl, rfl⟩, h⟩
      | some x => cases hnone

/-- The height and the script of a coin are within the limits. -/
structure Coin.Sized (c : Coin) : Prop where
  height : c.height < Bytes.capacity 4
  output : c.output.Sized

theorem Coin.decode_inverts : Coin.decode.Inverts Coin.encode Coin.Sized := by
  intro bs c rest
  simp only [decode, step_bind_ok, Decoder.number_ok, step_guard_ok, optional_u32_ok,
    TxOut.decode_inverts _ _ _, step_pure_ok]
  constructor
  · rintro ⟨height, _, ⟨hheight, rfl⟩, flags, _, ⟨-, rfl⟩, hlow, time, _, htime, rfl, output, _,
      ⟨houtput, rfl⟩, rfl, rfl⟩
    have hflags := toNat_bits (Nat.not_le.1 hlow)
    rw [htime] at hflags
    refine ⟨⟨hheight, houtput⟩, ?_⟩
    rw [encode, Coin.flags, hflags]
    simp [Bytes.littleEndian]
  · rintro ⟨⟨hheight, houtput⟩, rfl⟩
    obtain ⟨hlow, hcoinbase, hcoinstake, htime⟩ :=
      bits_toNat c.fromCoinbase c.fromCoinstake c.time.isSome (n := c.flags) rfl
    have hcapacity : c.flags < Bytes.capacity 1 := Nat.lt_trans hlow (by decide)
    refine ⟨c.height, _, ⟨hheight, by simp [encode]; rfl⟩, c.flags, _,
      ⟨hcapacity, by simp [Bytes.littleEndian]⟩, Nat.not_le.2 hlow, c.time, _, htime, rfl, c.output,
      rest, ⟨houtput, rfl⟩, ?_, rfl⟩
    rw [hcoinbase, hcoinstake]

/-! ## Tips and undo records -/

/-- The height of a tip fits in four bytes. -/
def Tip.Sized (t : Tip) : Prop := t.height < Bytes.capacity 4

theorem Tip.decode_inverts : Tip.decode.Inverts Tip.encode Tip.Sized := by
  intro bs t rest
  simp only [decode, step_bind_ok, Decoder.digest_ok, Decoder.number_ok, step_pure_ok]
  constructor
  · rintro ⟨digest, _, rfl, height, _, ⟨hheight, rfl⟩, rfl, rfl⟩
    exact ⟨hheight, by simp [encode]⟩
  · rintro ⟨hheight, rfl⟩
    exact ⟨t.digest, _, by simp [encode], t.height, rest, ⟨hheight, rfl⟩, rfl, rfl⟩

theorem UndoRecord.decodeTip_inverts : UndoRecord.decodeTip.Inverts UndoRecord.encodeTip
    fun t? => ∀ t, t? = some t → t.Sized := by
  intro bs t? rest
  simp only [decodeTip, step_bind_ok, Decoder.u8_ok]
  constructor
  · rintro ⟨marker, _, rfl, h⟩
    split at h
    · next hmarker =>
      obtain ⟨rfl, rfl⟩ := step_pure_ok.1 h
      exact ⟨by simp, by simp [encodeTip, hmarker]⟩
    split at h
    · next hmarker =>
      simp only [step_bind_ok, Decoder.take_ok] at h
      obtain ⟨data, _, ⟨-, rfl⟩, h⟩ := h
      cases hread : Tip.ofBytes data with
      | ok t =>
        simp only [hread, step_pure_ok] at h
        obtain ⟨rfl, rfl⟩ := h
        obtain ⟨hsized, rfl⟩ := Tip.decode_inverts.exactly_ok.1 hread
        exact ⟨by simpa using hsized, by simp [encodeTip, hmarker]⟩
      | error e =>
        simp only [hread] at h
        exact absurd h step_throw_ok
    · exact absurd h step_throw_ok
  · rintro ⟨hsized, rfl⟩
    cases t? with
    | none => exact ⟨0, rest, rfl, rfl⟩
    | some t =>
      have hlen : t.encode.length = 36 := by simp [Tip.encode, t.digest.length_bytes]
      have hread : Tip.ofBytes t.encode = .ok t :=
        Tip.decode_inverts.exactly_ok.2 ⟨hsized t rfl, rfl⟩
      refine ⟨1, t.encode ++ rest, rfl, ?_⟩
      rw [if_neg (by decide), if_pos rfl, step_bind_of_ok (Decoder.take_ok.2 ⟨hlen, rfl⟩)]
      simp only [hread, step_pure_ok, and_self]

theorem OutPoint.ofKey?_eq_some {bs : Bytes} {o : OutPoint} : ofKey? bs = some o ↔ bs = o.key := by
  constructor
  · intro h
    unfold ofKey? at h
    split at h
    · next hlen =>
      simp only [Option.bind_eq_bind, Option.bind_eq_some_iff] at h
      obtain ⟨txid, htxid, ⟨⟩⟩ := h
      have hdrop : (bs.drop 32).length = 4 := by simp [hlen]
      have hlt : Bytes.ofBigEndian (bs.drop 32) < Bytes.capacity 4 := by
        simpa [hlen, Bytes.ofBigEndian] using Bytes.ofLittleEndian_lt (bs.drop 32).reverse
      have hindex := Bytes.bigEndian_ofBigEndian (bs.drop 32)
      rw [hdrop] at hindex
      simp only [key, Digest.bytes_of_ofBytes? htxid, UInt32.toNat_ofNat_of_lt' hlt, hindex,
        List.take_append_drop]
    · cases h
  · rintro rfl
    exact ofKey?_key o

theorem UndoRecord.decodeKey_inverts :
    UndoRecord.decodeKey.Inverts OutPoint.key fun _ => True := by
  intro bs o rest
  simp only [decodeKey, step_bind_ok, Decoder.take_ok, true_and]
  constructor
  · rintro ⟨data, _, ⟨-, rfl⟩, h⟩
    cases hread : OutPoint.ofKey? data with
    | some o' =>
      simp only [hread, step_pure_ok] at h
      obtain ⟨rfl, rfl⟩ := h
      rw [OutPoint.ofKey?_eq_some.1 hread]
    | none =>
      simp only [hread] at h
      exact absurd h step_throw_ok
  · rintro rfl
    refine ⟨o.key, rest, ⟨o.length_key, rfl⟩, ?_⟩
    simp only [OutPoint.ofKey?_key, step_pure_ok, and_self]

theorem UndoRecord.decodeRestored_inverts : UndoRecord.decodeRestored.Inverts
    (fun oc => oc.1.key ++ oc.2.encode) fun oc => oc.2.Sized := by
  intro bs oc rest
  simp only [decodeRestored, step_bind_ok, UndoRecord.decodeKey_inverts _ _ _,
    Coin.decode_inverts _ _ _, step_pure_ok]
  constructor
  · rintro ⟨o, _, ⟨-, rfl⟩, c, _, ⟨hc, rfl⟩, rfl, rfl⟩
    exact ⟨hc, by simp⟩
  · rintro ⟨hc, rfl⟩
    exact ⟨oc.1, _, ⟨trivial, by simp⟩, oc.2, rest, ⟨hc, rfl⟩, rfl, rfl⟩

/-- The tip, the lists and the coins of an undo record are within the limits. -/
structure UndoRecord.Sized (r : UndoRecord) : Prop where
  previousTip : ∀ t, r.previousTip = some t → t.Sized
  remove : SizedList (fun _ => True) r.remove
  restore : SizedList (fun oc => oc.2.Sized) r.restore

theorem UndoRecord.decode_inverts :
    UndoRecord.decode.Inverts UndoRecord.encode UndoRecord.Sized := by
  intro bs r rest
  simp only [decode, step_bind_ok, decodeTip_inverts _ _ _, decodeList_ok decodeKey_inverts,
    decodeList_ok decodeRestored_inverts, step_pure_ok]
  constructor
  · rintro ⟨tip, _, ⟨htip, rfl⟩, remove, _, ⟨hremove, rfl⟩, restore, _, ⟨hrestore, rfl⟩, rfl, rfl⟩
    exact ⟨⟨htip, hremove, hrestore⟩, by simp [encode]⟩
  · rintro ⟨⟨htip, hremove, hrestore⟩, rfl⟩
    exact ⟨r.previousTip, _, ⟨htip, by simp [encode]⟩, r.remove, _, ⟨hremove, rfl⟩, r.restore, rest,
      ⟨hrestore, rfl⟩, rfl, rfl⟩

/-! ## Stake records -/

theorem StakeFlags.ofNat?_eq_some {n : Nat} {f : StakeFlags} :
    ofNat? n = some f ↔ n = f.toNat := by
  unfold ofNat? toNat
  constructor
  · intro h
    split at h
    · next hlow =>
      cases h
      exact (toNat_bits hlow).symm
    · cases h
  · intro h
    obtain ⟨hlow, hstake, hentropy, hmodifier⟩ := bits_toNat _ _ _ h
    rw [if_pos hlow, hstake, hentropy, hmodifier]

theorem StakeRecord.decodeFlags_ok {bs rest : Bytes} {f : StakeFlags} :
    decodeFlags bs = .ok f rest ↔ bs = Bytes.littleEndian 4 f.toNat ++ rest := by
  simp only [decodeFlags, step_bind_ok, Decoder.number_ok]
  constructor
  · rintro ⟨n, _, ⟨-, rfl⟩, h⟩
    cases hread : StakeFlags.ofNat? n with
    | some f' =>
      simp only [hread, step_pure_ok] at h
      obtain ⟨rfl, rfl⟩ := h
      rw [StakeFlags.ofNat?_eq_some.1 hread]
    | none =>
      simp only [hread] at h
      exact absurd h step_throw_ok
  · rintro rfl
    have hlow : f.toNat < Bytes.capacity 4 :=
      Nat.lt_trans (bits_toNat _ _ _ (rfl : f.toNat = _)).1 (by decide)
    refine ⟨f.toNat, rest, ⟨hlow, rfl⟩, ?_⟩
    simp only [StakeFlags.ofNat?_eq_some.2 rfl, step_pure_ok, and_self]

theorem StakeRecord.decodePrevout_ok {bs rest : Bytes} {o? : Option OutPoint} :
    decodePrevout bs = .ok o? rest ↔ bs = encodePrevout o? ++ rest := by
  simp only [decodePrevout, step_bind_ok, Decoder.u8_ok]
  constructor
  · rintro ⟨marker, _, rfl, h⟩
    split at h
    · next hmarker =>
      obtain ⟨rfl, rfl⟩ := step_pure_ok.1 h
      simp [encodePrevout, hmarker]
    split at h
    · next hmarker =>
      simp only [step_bind_ok, OutPoint.decode_ok, step_pure_ok] at h
      obtain ⟨o, _, rfl, rfl, rfl⟩ := h
      simp [encodePrevout, hmarker]
    · exact absurd h step_throw_ok
  · rintro rfl
    cases o? with
    | none => exact ⟨0, rest, rfl, rfl⟩
    | some o =>
      refine ⟨1, o.encode ++ rest, rfl, ?_⟩
      rw [if_neg (by decide), if_pos rfl, step_bind_of_ok (OutPoint.decode_ok.2 rfl)]
      rfl

theorem StakeRecord.decode_inverts : StakeRecord.decode.Inverts StakeRecord.encode fun _ => True := by
  intro bs r rest
  simp only [decode, step_bind_ok, decodeFlags_ok, Decoder.digest_ok, Decoder.u32_ok,
    decodePrevout_ok, step_pure_ok, true_and]
  constructor
  · rintro ⟨flags, _, rfl, modifier, _, rfl, time, _, rfl, proof, _, rfl, prevout, _, rfl, rfl, rfl⟩
    simp [encode]
  · rintro rfl
    exact ⟨r.flags, _, by simp [encode], r.modifier, _, rfl, r.time, _, rfl, r.proof, _, rfl,
      r.prevout, rest, rfl, rfl, rfl⟩

/-! ## Rows -/

/-- A row is read as the one value of which it is the stored form, or reported as corrupt. -/
def ReadsOneValue {α : Type} (read : Bytes → Except Fault α) (encode : α → Bytes)
    (Sized : α → Prop) (corrupt : DecodeError → Corruption) : Prop :=
  ∀ bs, (∃ a, read bs = .ok a ∧ encode a = bs ∧ ∀ b, Sized b → encode b = bs → b = a) ∨
    ∃ e, read bs = .error (.corruption (corrupt e)) ∧ ∀ b, Sized b → encode b ≠ bs

theorem Canonical.readsOneValue {α : Type} {ofBytes : Bytes → Except DecodeError α}
    {encode : α → Bytes} {Sized : α → Prop} (h : Canonical ofBytes encode Sized)
    (corrupt : DecodeError → Corruption) :
    ReadsOneValue (fun bs => (ofBytes bs).mapError fun e => .corruption (corrupt e)) encode Sized
      corrupt := by
  intro bs
  cases hread : ofBytes bs with
  | ok a =>
    refine .inl ⟨a, by simp [hread], h.canonical bs a hread, ?_⟩
    rintro b hb rfl
    rw [h.roundTrip b hb] at hread
    cases hread
    rfl
  | error e =>
    refine .inr ⟨e, by simp only [hread]; rfl, ?_⟩
    rintro b hb rfl
    rw [h.roundTrip b hb] at hread
    cases hread

/-- Coins, undo records, stake records and tips are read back from their stored forms, and every
byte string that is read is the stored form of what is read. So a row of the database stands for
one value or is reported as corrupt. -/
theorem storedForms_canonical :
    (Canonical Coin.ofBytes Coin.encode Coin.Sized ∧
        ReadsOneValue RowStore.readCoin Coin.encode Coin.Sized .coin) ∧
      (Canonical UndoRecord.ofBytes UndoRecord.encode UndoRecord.Sized ∧
        ReadsOneValue RowStore.readUndo UndoRecord.encode UndoRecord.Sized .undo) ∧
      (Canonical StakeRecord.ofBytes StakeRecord.encode (fun _ => True) ∧
        ReadsOneValue RowStore.readStake StakeRecord.encode (fun _ => True) .stake) ∧
      (Canonical Tip.ofBytes Tip.encode Tip.Sized ∧
        ReadsOneValue RowStore.readTip Tip.encode Tip.Sized .tip) := by
  have hcoin := Coin.decode_inverts.canonical
  have hundo := UndoRecord.decode_inverts.canonical
  have hstake := StakeRecord.decode_inverts.canonical
  have htip := Tip.decode_inverts.canonical
  exact ⟨⟨hcoin, hcoin.readsOneValue .coin⟩, ⟨hundo, hundo.readsOneValue .undo⟩,
    ⟨hstake, hstake.readsOneValue .stake⟩, ⟨htip, htip.readsOneValue .tip⟩⟩

end Chainstate
