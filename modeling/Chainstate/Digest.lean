-- SUMMARY: 32-byte digests, their order and their reversed hexadecimal text.
import Chainstate.Bytes.Hex
import Chainstate.Table

/-!
# Digests

A digest identifies a transaction, a header or a block. It is ordered by its bytes, read as a
number with the least significant byte first, and shown to people with its bytes reversed.
-/

namespace Chainstate

structure Digest where
  bytes : Bytes
  length_bytes : bytes.length = 32
  deriving DecidableEq

namespace Digest

/-! ## Construction -/

/-- The digest made of exactly 32 bytes. -/
def ofBytes? (bs : Bytes) : Option Digest :=
  if h : bs.length = 32 then some ⟨bs, h⟩ else none

/-- All bytes zero: the parent of a genesis block and the transaction id of the null outpoint. -/
def zero : Digest := ⟨List.replicate 32 0, by simp⟩

instance : Inhabited Digest := ⟨zero⟩

@[ext] theorem ext {a b : Digest} (h : a.bytes = b.bytes) : a = b := by
  cases a; cases b; simp_all

@[simp] theorem ofBytes?_bytes (d : Digest) : ofBytes? d.bytes = some d := by
  simp [ofBytes?, d.length_bytes]

theorem bytes_of_ofBytes? {bs : Bytes} {d : Digest} (h : ofBytes? bs = some d) : d.bytes = bs := by
  unfold ofBytes? at h
  split at h
  · exact (Option.some.inj h) ▸ rfl
  · cases h

/-! ## Order and number -/

instance : Ord Digest := ⟨compareOn Digest.bytes⟩

instance : Std.TransOrd Digest := inferInstanceAs (Std.TransCmp (compareOn Digest.bytes))

instance : Std.LawfulEqOrd Digest where
  eq_of_compare {a b} h :=
    ext (Std.LawfulEqCmp.eq_of_compare (show compare a.bytes b.bytes = .eq from h))

/-- The digest as a number, least significant byte first. -/
def toNat (d : Digest) : Nat := Bytes.ofLittleEndian d.bytes

theorem toNat_lt (d : Digest) : d.toNat < Bytes.capacity 32 := by
  have h := Bytes.ofLittleEndian_lt d.bytes
  rw [d.length_bytes] at h
  exact h

/-! ## Text -/

/-- Hexadecimal digits of the bytes in reverse order. -/
def toHex (d : Digest) : String := Hex.encode d.bytes.reverse

/-- Reads 64 hexadecimal digits, the last byte first. -/
def ofHex? (s : String) : Option Digest := do
  let bs ← Hex.decode? s
  ofBytes? bs.reverse

end Digest

end Chainstate
