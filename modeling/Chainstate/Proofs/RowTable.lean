-- SUMMARY: The order of storage keys, and tables of values laid out as rows of bytes.
import Chainstate.Proofs.CoinTable
import Chainstate.Proofs.StoredForm

/-!
# Tables as rows of bytes

A table on disk has a byte string for each key and for each value. The first part shows that the
keys sort as what they stand for: numbers with the most significant byte first sort as numbers,
and outpoints by the bytes of their transaction ids and then by their indices. A `RowLayout` says
how the keys and the values of a table are written and that they can be told apart and read back;
`RowLayout.Represents` relates a table to rows that hold its entries and nothing else, and is kept
by every change of both.
-/

namespace Chainstate

/-! ## Order of keys -/

namespace Bytes

/-- Byte strings with beginnings of one length compare by these first. -/
theorem compare_append {as bs : Bytes} (h : as.length = bs.length) (xs ys : Bytes) :
    compare (as ++ xs) (bs ++ ys) = (compare as bs).then (compare xs ys) := by
  induction as generalizing bs with
  | nil =>
    obtain rfl := List.length_eq_zero_iff.1 h.symm
    rfl
  | cons a as ih =>
    obtain ⟨b, bs, rfl⟩ := List.exists_cons_of_length_eq_add_one h.symm
    have htail := ih (Nat.succ.inj h)
    simp only [List.compare_eq_compareLex] at htail
    simp only [List.cons_append, List.compare_eq_compareLex, List.compareLex_cons_cons, htail,
      Ordering.then_assoc]

theorem bigEndian_succ (width n : Nat) :
    bigEndian (width + 1) n = bigEndian width (n / 256) ++ [UInt8.ofNat n] := by
  simp [bigEndian, littleEndian]

/-- Numbers most significant byte first sort as the numbers do. -/
theorem compare_bigEndian {width a b : Nat} (ha : a < capacity width) (hb : b < capacity width) :
    compare (bigEndian width a) (bigEndian width b) = compare a b := by
  induction width generalizing a b with
  | zero =>
    have hzero : a = 0 ∧ b = 0 := by
      simp only [capacity] at ha hb
      omega
    rw [hzero.1, hzero.2]
    rfl
  | succ width ih =>
    simp only [capacity] at ha hb
    have hhigh := ih (a := a / 256) (b := b / 256) (by omega) (by omega)
    have hlow : compare [UInt8.ofNat a] [UInt8.ofNat b] = compare (a % 256) (b % 256) := by
      simp [UInt8.compare_eq_toNat_compare_toNat]
    rw [bigEndian_succ, bigEndian_succ, compare_append (by simp), hhigh, hlow]
    -- the quotient decides, and the remainder where the quotients agree
    rcases Nat.lt_trichotomy (a / 256) (b / 256) with hlt | heq | hgt
    · have hab : a < b := by omega
      rw [Nat.compare_eq_lt.2 hlt, Nat.compare_eq_lt.2 hab]
      rfl
    · rw [Nat.compare_eq_eq.2 heq, Ordering.eq_then]
      rcases Nat.lt_trichotomy (a % 256) (b % 256) with hlt | hmod | hgt
      · rw [Nat.compare_eq_lt.2 hlt, Nat.compare_eq_lt.2 (by omega)]
      · rw [Nat.compare_eq_eq.2 hmod, Nat.compare_eq_eq.2 (by omega)]
      · rw [Nat.compare_eq_gt.2 hgt, Nat.compare_eq_gt.2 (by omega)]
    · have hba : b < a := by omega
      rw [Nat.compare_eq_gt.2 hgt, Nat.compare_eq_gt.2 hba]
      rfl

theorem bigEndian_injective {width a b : Nat} (ha : a < capacity width) (hb : b < capacity width)
    (h : bigEndian width a = bigEndian width b) : a = b := by
  have horder := compare_bigEndian ha hb
  have hself : compare (bigEndian width b) (bigEndian width b) = .eq := Std.ReflCmp.compare_self
  rw [h, hself] at horder
  exact Nat.compare_eq_eq.1 horder.symm

end Bytes

/-- The order of storage keys is the order of transaction ids and then of indices. -/
theorem OutPoint.compare_eq (a b : OutPoint) :
    compare a b = (compare a.txid b.txid).then (compare a.index b.index) := by
  have hlen : a.txid.bytes.length = b.txid.bytes.length := by
    rw [a.txid.length_bytes, b.txid.length_bytes]
  have hindex : compare (Bytes.bigEndian 4 a.index.toNat) (Bytes.bigEndian 4 b.index.toNat)
      = compare a.index b.index := by
    rw [Bytes.compare_bigEndian a.index.toNat_lt b.index.toNat_lt,
      UInt32.compare_eq_toNat_compare_toNat]
  change compare a.key b.key = _
  rw [OutPoint.key, OutPoint.key, Bytes.compare_append hlen, hindex]
  rfl

/-! ## Layouts -/

/-- How a table is written: its keys and its values as byte strings, and the keys and values for
which this works. -/
structure RowLayout (κ ν : Type) where
  key : κ → Bytes
  encode : ν → Bytes
  read : Bytes → Except Fault ν
  Key : κ → Prop
  Value : ν → Prop
  key_injective : ∀ {a b}, Key a → Key b → key a = key b → a = b
  read_encode : ∀ {v}, Value v → read (encode v) = .ok v

namespace RowLayout

variable {κ ν : Type} [Ord κ] [Std.TransOrd κ] [Std.LawfulEqOrd κ] [DecidableEq κ]
  {l : RowLayout κ ν} {t : Table κ ν} {rows : Table Bytes Bytes}

/-- The rows are the entries of the table, each under its key, and no others. -/
structure Represents (l : RowLayout κ ν) (t : Table κ ν) (rows : Table Bytes Bytes) : Prop where
  sized : ∀ k v, t[k]? = some v → l.Key k ∧ l.Value v
  row : ∀ bs x, rows[bs]? = some x ↔ ∃ k v, t[k]? = some v ∧ l.key k = bs ∧ l.encode v = x

omit [Std.LawfulEqOrd κ] [DecidableEq κ] in
theorem represents_empty (l : RowLayout κ ν) : l.Represents ∅ ∅ where
  sized k v h := by simp at h
  row bs x := by simp

/-! ### Lookups -/

omit [Std.LawfulEqOrd κ] [DecidableEq κ] in
/-- A key that can be written finds its entry. -/
theorem Represents.getElem?_key (h : l.Represents t rows) {k : κ} (hk : l.Key k) :
    rows[l.key k]? = t[k]?.map l.encode := by
  apply Option.ext
  intro x
  rw [h.row]
  constructor
  · rintro ⟨k', v, hv, hkey, rfl⟩
    obtain rfl := l.key_injective (h.sized k' v hv).1 hk hkey
    rw [hv, Option.map_some]
  · intro hx
    obtain ⟨v, hv, rfl⟩ := Option.map_eq_some_iff.1 hx
    exact ⟨k, v, hv, rfl, rfl⟩

omit [Std.LawfulEqOrd κ] [DecidableEq κ] in
/-- The entry that is read back is the one in the table. -/
theorem Represents.look (h : l.Represents t rows) {k : κ} (hk : l.Key k) :
    RowStore.look l.read rows[l.key k]? = .ok t[k]? := by
  rw [h.getElem?_key hk]
  cases hv : t[k]? with
  | none => rfl
  | some v =>
    simp only [Option.map_some, RowStore.look, l.read_encode (h.sized k v hv).2]
    rfl

/-! ### Changes -/

theorem Represents.insert (h : l.Represents t rows) {k : κ} {v : ν} (hk : l.Key k)
    (hv : l.Value v) : l.Represents (t.insert k v) (rows.insert (l.key k) (l.encode v)) where
  sized a w haw := by
    rw [Table.getElem?_insert] at haw
    split at haw
    · next heq =>
      cases haw
      exact ⟨heq ▸ hk, hv⟩
    · exact h.sized a w haw
  row bs x := by
    rw [Table.getElem?_insert]
    constructor
    · intro hx
      split at hx
      · next heq =>
        cases hx
        exact ⟨k, v, by simp, heq, rfl⟩
      · next hne =>
        obtain ⟨a, w, haw, rfl, rfl⟩ := (h.row bs x).1 hx
        have hka : k ≠ a := fun heq => hne (heq ▸ rfl)
        exact ⟨a, w, by rw [Table.getElem?_insert, if_neg hka, haw], rfl, rfl⟩
    · rintro ⟨a, w, haw, rfl, rfl⟩
      rw [Table.getElem?_insert] at haw
      split at haw
      · next heq =>
        cases haw
        rw [if_pos (heq ▸ rfl)]
      · next hne =>
        have hkey : l.key k ≠ l.key a :=
          fun heq => hne (l.key_injective hk (h.sized a w haw).1 heq)
        rw [if_neg hkey]
        exact (h.row _ _).2 ⟨a, w, haw, rfl, rfl⟩

theorem Represents.erase (h : l.Represents t rows) {k : κ} (hk : l.Key k) :
    l.Represents (t.erase k) (rows.erase (l.key k)) where
  sized a w haw := by
    rw [Table.getElem?_erase] at haw
    split at haw
    · cases haw
    · exact h.sized a w haw
  row bs x := by
    rw [Table.getElem?_erase]
    constructor
    · intro hx
      split at hx
      · cases hx
      · next hne =>
        obtain ⟨a, w, haw, rfl, rfl⟩ := (h.row bs x).1 hx
        have hka : k ≠ a := fun heq => hne (heq ▸ rfl)
        exact ⟨a, w, by rw [Table.getElem?_erase, if_neg hka, haw], rfl, rfl⟩
    · rintro ⟨a, w, haw, rfl, rfl⟩
      rw [Table.getElem?_erase] at haw
      split at haw
      · cases haw
      · next hne =>
        have hkey : l.key k ≠ l.key a :=
          fun heq => hne (l.key_injective hk (h.sized a w haw).1 heq)
        rw [if_neg hkey]
        exact (h.row _ _).2 ⟨a, w, haw, rfl, rfl⟩

/-! ### Listings -/

omit [DecidableEq κ] in
/-- Where keys sort as what they stand for, the rows are listed as the entries are. -/
theorem Represents.toList (h : l.Represents t rows)
    (hkey : ∀ a b, compare (l.key a) (l.key b) = compare a b) :
    rows.toList = t.toList.map fun kv => (l.key kv.1, l.encode kv.2) := by
  have hsorted : (t.toList.map fun kv => (l.key kv.1, l.encode kv.2)).Pairwise
      fun a b => compare a.1 b.1 = .lt := by
    rw [List.pairwise_map]
    refine t.ordered_keys_toList.imp ?_
    intro a b hlt
    rw [hkey, hlt]
  refine Table.eq_of_sorted Prod.fst rows.ordered_keys_toList hsorted ?_
  rintro ⟨bs, x⟩
  rw [Std.ExtTreeMap.mem_toList_iff_getElem?_eq_some, h.row]
  simp only [List.mem_map, Prod.exists, Std.ExtTreeMap.mem_toList_iff_getElem?_eq_some,
    Prod.mk.injEq]

end RowLayout

end Chainstate
