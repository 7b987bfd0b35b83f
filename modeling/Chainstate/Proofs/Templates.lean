-- SUMMARY: Templates of output scripts: what is recognised is what is built, and templates exclude each other.
import Chainstate.Script.SigOps
import Chainstate.Script.Template
import Chainstate.Stake.Signature

/-!
# Templates

Builders put the parts of a script one after the other; recognisers look at its length and cut it at
fixed positions. The two agree because a list is cut in two exactly where its first part ends
(`Script.eq_append_iff`), so what is recognised is what is built, from the data that is given back.
The first byte and the length of a script then tell its template (`Script.Template.outlines`): no
script has two, and of all templates only the carrier of a key starts with a return.
-/

namespace Chainstate

namespace Script

/-! ## Parts of a script -/

/-- A list is cut in two where its first part ends. -/
theorem eq_append_iff {α : Type} {xs first second : List α} {n : Nat} (hfirst : first.length = n) :
    xs = first ++ second ↔ xs.take n = first ∧ xs.drop n = second := by
  constructor
  · rintro rfl
    subst hfirst
    exact ⟨List.take_left, List.drop_left⟩
  · rintro ⟨rfl, rfl⟩
    exact (List.take_append_drop n xs).symm

variable {s : Script} {key hot cold : Bytes}

/-- Bytes are a hash between a head and a tail where their length, their first and their last bytes
are right. -/
theorem framed_iff {bs head tail : Bytes} :
    (∃ hash : Bytes, hash.length = 20 ∧ bs = head ++ (hash ++ tail))
      ↔ bs.length = head.length + (20 + tail.length) ∧ bs.take head.length = head
        ∧ bs.drop (head.length + 20) = tail := by
  constructor
  · rintro ⟨hash, hhash, hbs⟩
    obtain ⟨hhead, hrest⟩ := (eq_append_iff rfl).1 hbs
    obtain ⟨-, htail⟩ := (eq_append_iff hhash).1 hrest
    rw [List.drop_drop] at htail
    refine ⟨?_, hhead, htail⟩
    rw [hbs, List.length_append, List.length_append, hhash]
  · rintro ⟨hlength, hhead, htail⟩
    have hhash : ((bs.drop head.length).take 20).length = 20 := by
      rw [List.length_take, List.length_drop]
      omega
    refine ⟨_, hhash, (eq_append_iff rfl).2 ⟨hhead, (eq_append_iff hhash).2 ⟨rfl, ?_⟩⟩⟩
    rw [List.drop_drop, htail]

/-! ## Recognisers -/

theorem isPayToKeyHash_iff :
    s.isPayToKeyHash = true ↔ ∃ hash, hash.length = 20 ∧ s = payToKeyHash hash := by
  obtain ⟨bs⟩ := s
  simp only [payToKeyHash, List.append_assoc, Script.mk.injEq]
  rw [framed_iff]
  simp [isPayToKeyHash, and_assoc]

theorem isPayToScriptHash_iff : s.isPayToScriptHash = true
    ↔ ∃ hash, hash.length = 20 ∧ s = ⟨[Opcode.hash160, 0x14] ++ (hash ++ [Opcode.equal])⟩ := by
  obtain ⟨bs⟩ := s
  simp only [Script.mk.injEq]
  rw [framed_iff]
  simp [isPayToScriptHash, and_assoc]

theorem isKeyLength_iff {n : Nat} : isKeyLength n = true ↔ n = 33 ∨ n = 65 := by
  simp [isKeyLength]

/-- A length of keys fits into the byte that it is written in. -/
theorem toNat_ofNat_of_isKeyLength {n : Nat} (h : isKeyLength n = true) :
    (UInt8.ofNat n).toNat = n := by
  obtain rfl | rfl := isKeyLength_iff.1 h
  · rfl
  · rfl

theorem paidKey?_eq_some_iff :
    s.paidKey? = some key ↔ isKeyLength key.length = true ∧ s = payToKey key := by
  obtain ⟨bs⟩ := s
  rw [payToKey, Script.mk.injEq]
  constructor
  · intro h
    unfold paidKey? at h
    split at h
    · cases h
    · next n rest hbs =>
      simp only [Option.ite_none_right_eq_some, Bool.and_eq_true, beq_iff_eq,
        Option.some.injEq] at h
      obtain ⟨⟨⟨hkey, hlength⟩, hlast⟩, rfl⟩ := h
      have hn : (rest.take n.toNat).length = n.toNat := by
        rw [List.length_take]
        omega
      have hrest : rest = rest.take n.toNat ++ [Opcode.checkSig] :=
        (eq_append_iff hn).2 ⟨rfl, hlast⟩
      rw [hn, UInt8.ofNat_toNat, List.cons_append, ← hrest]
      exact ⟨hkey, hbs⟩
  · rintro ⟨hkey, rfl⟩
    simp [paidKey?, toNat_ofNat_of_isKeyLength hkey, hkey]

theorem pushData_of_isKeyLength (h : isKeyLength key.length = true) :
    pushData key = UInt8.ofNat key.length :: key := by
  apply pushData_of_short
  obtain hlength | hlength := isKeyLength_iff.1 h
  · omega
  · omega

theorem carriedKey?_eq_some_iff :
    s.carriedKey? = some key ↔ isKeyLength key.length = true ∧ s = dataCarrier key := by
  obtain ⟨bs⟩ := s
  rw [dataCarrier, Script.mk.injEq]
  constructor
  · intro h
    unfold carriedKey? at h
    split at h
    · next ret n rest hbs =>
      simp only [Option.ite_none_right_eq_some, Bool.and_eq_true, beq_iff_eq,
        Option.some.injEq] at h
      obtain ⟨⟨⟨rfl, hkey⟩, hlength⟩, rfl⟩ := h
      rw [pushData_of_isKeyLength (hlength ▸ hkey), hlength, UInt8.ofNat_toNat]
      exact ⟨hkey, hbs⟩
    · cases h
  · rintro ⟨hkey, rfl⟩
    rw [pushData_of_isKeyLength hkey]
    simp [carriedKey?, toNat_ofNat_of_isKeyLength hkey, hkey]

theorem coldStakingKeys?_eq_some_iff : s.coldStakingKeys? = some (hot, cold)
    ↔ hot.length = 20 ∧ cold.length = 20 ∧ s = coldStaking hot cold := by
  obtain ⟨bs⟩ := s
  simp only [coldStaking, List.append_assoc, Script.mk.injEq]
  constructor
  · intro h
    unfold coldStakingKeys? at h
    simp only [Option.ite_none_right_eq_some, Bool.and_eq_true, beq_iff_eq, Option.some.injEq,
      Prod.mk.injEq] at h
    obtain ⟨⟨⟨⟨hlength, hhead⟩, hmiddle⟩, htail⟩, rfl, rfl⟩ := h
    have hhot : ((bs.drop 6).take 20).length = 20 := by simp [hlength]
    have hcold : ((bs.drop 28).take 20).length = 20 := by simp [hlength]
    refine ⟨hhot, hcold, ?_⟩
    refine (eq_append_iff rfl).2 ⟨hhead, (eq_append_iff hhot).2 ⟨rfl, ?_⟩⟩
    rw [List.drop_drop]
    refine (eq_append_iff rfl).2 ⟨hmiddle, ?_⟩
    rw [List.drop_drop]
    refine (eq_append_iff hcold).2 ⟨rfl, ?_⟩
    rw [List.drop_drop]
    exact htail
  · rintro ⟨hhot, hcold, rfl⟩
    simp [coldStakingKeys?, hhot, hcold, List.take_append, List.drop_append]

/-! ## Templates exclude each other -/

/-- The forms of scripts that are recognised. -/
inductive Template where
  | payToKeyHash
  | payToKey
  | keyCarrier
  | coldStaking
  | payToScriptHash
  deriving DecidableEq

namespace Template

/-- Whether the recogniser of a template accepts a script. -/
def accepts : Template → Script → Bool
  | payToKeyHash, s => s.isPayToKeyHash
  | payToKey, s => s.paidKey?.isSome
  | keyCarrier, s => s.carriesKey
  | coldStaking, s => s.isColdStaking
  | payToScriptHash, s => s.isPayToScriptHash

/-- The first byte and the length of the scripts of a template. -/
def outlines : Template → List (UInt8 × Nat)
  | payToKeyHash => [(Opcode.dup, 25)]
  | payToKey => [(33, 35), (65, 67)]
  | keyCarrier => [(Opcode.opReturn, 35), (Opcode.opReturn, 67)]
  | coldStaking => [(Opcode.dup, 51)]
  | payToScriptHash => [(Opcode.hash160, 23)]

/-- A first byte and a length belong to one template. -/
theorem eq_of_mem_outlines {t t' : Template} :
    ∀ outline ∈ t.outlines, outline ∈ t'.outlines → t = t' := by
  cases t <;> cases t' <;> decide

/-- Scripts of templates are short, and of their first bytes only that of a carrier is a return. -/
theorem return_iff_of_mem_outlines {t : Template} : ∀ outline ∈ t.outlines,
    (outline.1 = Opcode.opReturn ↔ t = keyCarrier) ∧ outline.2 ≤ maxSpendableSize := by
  cases t <;> decide

variable {t t' : Template}

theorem outline_of_accepts (h : t.accepts s = true) :
    ∃ first, s.bytes.head? = some first ∧ (first, s.bytes.length) ∈ t.outlines := by
  cases t with
  | payToKeyHash =>
    obtain ⟨hash, hhash, rfl⟩ := isPayToKeyHash_iff.1 h
    exact ⟨_, rfl, by simp [Script.payToKeyHash, hhash, outlines]⟩
  | payToKey =>
    obtain ⟨key, hkey⟩ := Option.isSome_iff_exists.1 h
    obtain ⟨hlength, rfl⟩ := paidKey?_eq_some_iff.1 hkey
    refine ⟨_, rfl, ?_⟩
    obtain hlength | hlength := isKeyLength_iff.1 hlength
    · simp [Script.payToKey, hlength, outlines]
    · simp [Script.payToKey, hlength, outlines]
  | keyCarrier =>
    obtain ⟨key, hkey⟩ := Option.isSome_iff_exists.1 h
    obtain ⟨hlength, rfl⟩ := carriedKey?_eq_some_iff.1 hkey
    refine ⟨_, rfl, ?_⟩
    rw [dataCarrier, pushData_of_isKeyLength hlength]
    obtain hlength | hlength := isKeyLength_iff.1 hlength
    · simp [hlength, outlines]
    · simp [hlength, outlines]
  | coldStaking =>
    obtain ⟨⟨hot, cold⟩, hkeys⟩ := Option.isSome_iff_exists.1 h
    obtain ⟨hhot, hcold, rfl⟩ := coldStakingKeys?_eq_some_iff.1 hkeys
    exact ⟨_, rfl, by simp [Script.coldStaking, hhot, hcold, outlines]⟩
  | payToScriptHash =>
    obtain ⟨hash, hhash, rfl⟩ := isPayToScriptHash_iff.1 h
    exact ⟨_, rfl, by simp [hhash, outlines]⟩

/-- No script is of two templates. -/
theorem eq_of_accepts (h : t.accepts s = true) (h' : t'.accepts s = true) : t = t' := by
  obtain ⟨first, hfirst, houtline⟩ := outline_of_accepts h
  obtain ⟨first', hfirst', houtline'⟩ := outline_of_accepts h'
  rw [hfirst, Option.some.injEq] at hfirst'
  subst hfirst'
  exact eq_of_mem_outlines _ houtline houtline'

/-- Of all templates only the carrier of a key makes an output that no one can spend. -/
theorem isUnspendable_iff_of_accepts (h : t.accepts s = true) :
    s.isUnspendable = true ↔ t = keyCarrier := by
  obtain ⟨first, hfirst, houtline⟩ := outline_of_accepts h
  obtain ⟨hreturn, hlength⟩ := return_iff_of_mem_outlines _ houtline
  rw [← hreturn, isUnspendable, hfirst, decide_eq_false (Nat.not_lt.2 hlength), Bool.or_false,
    beq_iff_eq, Option.some.injEq]

end Template

/-- Templates are recognised exactly. A script is recognised as a template where it is built from
it, with keys of 33 or 65 bytes and hashes of 20 bytes, and what is given back is what it was built
from. No script is recognised as two templates, and of those that are recognised the carriers of a
key are the ones that cannot be spent. -/
theorem templates_exact (s : Script) :
    (s.isPayToKeyHash = true ↔ ∃ hash, hash.length = 20 ∧ s = payToKeyHash hash)
    ∧ (∀ key, s.paidKey? = some key ↔ (key.length = 33 ∨ key.length = 65) ∧ s = payToKey key)
    ∧ (∀ key, s.carriedKey? = some key ↔ (key.length = 33 ∨ key.length = 65) ∧ s = dataCarrier key)
    ∧ (∀ hot cold, s.coldStakingKeys? = some (hot, cold)
      ↔ hot.length = 20 ∧ cold.length = 20 ∧ s = coldStaking hot cold)
    ∧ (∀ t t' : Template, t.accepts s = true → t'.accepts s = true → t = t')
    ∧ ∀ t : Template, t.accepts s = true → (s.isUnspendable = true ↔ t = .keyCarrier) := by
  refine ⟨isPayToKeyHash_iff, fun key => ?_, fun key => ?_,
    fun hot cold => coldStakingKeys?_eq_some_iff, fun t t' => Template.eq_of_accepts,
    fun t => Template.isUnspendable_iff_of_accepts⟩
  · rw [paidKey?_eq_some_iff, isKeyLength_iff]
  · rw [carriedKey?_eq_some_iff, isKeyLength_iff]

end Script

/-! ## Signing keys -/

/-- The key that must sign a block is written in an output of its second transaction, which pays to
the key or carries it. -/
theorem Block.exists_output_of_signingKey? {b : Block} {key : Bytes}
    (h : b.signingKey? = some key) : (key.length = 33 ∨ key.length = 65)
      ∧ ∃ first tx rest, b.transactions = first :: tx :: rest ∧ ∃ o ∈ tx.outputs,
        o.script = Script.payToKey key ∨ o.script = Script.dataCarrier key := by
  unfold signingKey? at h
  split at h
  · next first tx rest htxs =>
    rw [← Script.isKeyLength_iff]
    split at h
    · next paid hpaid =>
      cases h
      obtain ⟨o, ho, hkey⟩ := Option.bind_eq_some_iff.1 hpaid
      obtain ⟨hlength, hscript⟩ := Script.paidKey?_eq_some_iff.1 hkey
      exact ⟨hlength, first, tx, rest, htxs, o, List.mem_of_getElem? ho, .inl hscript⟩
    · obtain ⟨o, ho, hkey⟩ := List.exists_of_findSome?_eq_some h
      obtain ⟨hlength, hscript⟩ := Script.carriedKey?_eq_some_iff.1 hkey
      exact ⟨hlength, first, tx, rest, htxs, o, ho, .inr hscript⟩
  · cases h

end Chainstate
