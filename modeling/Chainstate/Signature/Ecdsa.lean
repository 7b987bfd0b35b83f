-- SUMMARY: Signing digests and checking signatures over secp256k1.
import Chainstate.Digest.Sha256
import Chainstate.Signature.Der
import Chainstate.Signature.Secp256k1

/-!
# Signatures

ECDSA over secp256k1 with SHA-256. Signing takes its nonce from the key and the digest (RFC 6979)
and gives the lower of the two valid `s`; checking accepts either.
-/

namespace Chainstate

structure Signature where
  r : Nat
  s : Nat
  deriving DecidableEq

namespace Signature

open Secp256k1

def encode (sig : Signature) : Bytes := Der.encodePair sig.r sig.s

/-- Both parts must be positive and below the order of the group. -/
def ofBytes? (bs : Bytes) : Option Signature := do
  let (r, s) ← Der.decodePair? bs
  if 0 < r ∧ r < n ∧ 0 < s ∧ s < n then some ⟨r, s⟩ else none

/-- A digest as a number, most significant byte first. -/
def messageNumber (d : Digest) : Nat := Bytes.ofBigEndian d.bytes

/-- Whether `sig` is a signature of `d` by the owner of `key`. -/
def verify (sig : Signature) (key : Point) (d : Digest) : Bool :=
  let w := inverse n sig.s
  let u1 := messageNumber d * w % n
  let u2 := sig.r * w % n
  match ((multiple generator u1).add (multiple key u2)).toPoint? with
  | some a => a.x % n == sig.r
  | none => false

/-! ## Nonces -/

/-- The state of the generator of nonces: a key and a value. -/
structure NonceState where
  k : Bytes
  v : Bytes

namespace NonceState

/-- Mixes data into the state behind a separating byte. -/
def mix (g : NonceState) (byte : UInt8) (data : Bytes) : NonceState :=
  let k := hmacSha256 g.k (g.v ++ byte :: data)
  ⟨k, hmacSha256 k g.v⟩

/-- The state for a secret and a digest. -/
def start (secret : Nat) (d : Digest) : NonceState :=
  let seed := Bytes.bigEndian 32 secret ++ Bytes.bigEndian 32 (messageNumber d % n)
  let g : NonceState := ⟨List.replicate 32 0, List.replicate 32 1⟩
  (g.mix 0 seed).mix 1 seed

/-- The next candidate and the state after it. -/
def next (g : NonceState) : Nat × NonceState :=
  let v := hmacSha256 g.k g.v
  (Bytes.ofBigEndian v, ⟨g.k, v⟩)

end NonceState

/-- The signature that a nonce gives, where the nonce is good for one. -/
def withNonce? (secret : Nat) (d : Digest) (k : Nat) : Option Signature :=
  if k = 0 ∨ n ≤ k then none
  else do
    let a ← (multiple generator k).toPoint?
    let r := a.x % n
    let s := inverse n k * (messageNumber d + r * secret) % n
    if r = 0 ∨ s = 0 then none else some ⟨r, if n / 2 < s then n - s else s⟩

/-- Tries at most `attempts` nonces. -/
def search (secret : Nat) (d : Digest) : (attempts : Nat) → NonceState → Option Signature
  | 0, _ => none
  | attempts + 1, g =>
    let (k, g) := g.next
    match withNonce? secret d k with
    | some sig => some sig
    | none => search secret d attempts (g.mix 0 [])

/-- A bound on the nonces to try; all but the first are needed with negligible probability. -/
def maxAttempts : Nat := 256

/-- The signature of a digest by the secret key of 32 bytes. -/
def sign? (secret : Bytes) (d : Digest) : Option Signature :=
  let x := Bytes.ofBigEndian secret
  if secret.length ≠ 32 ∨ x = 0 ∨ n ≤ x then none
  else search x d maxAttempts (NonceState.start x d)

end Signature

end Chainstate
