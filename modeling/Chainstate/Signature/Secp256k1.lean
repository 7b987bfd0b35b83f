-- SUMMARY: The elliptic curve secp256k1: field arithmetic, points, scalar multiples and keys.
import Chainstate.Bytes

/-!
# The curve secp256k1

Points of `y² = x³ + 7` over the integers modulo `p`, a cyclic group of prime order `n`. Multiples
are computed in projective coordinates `(X, Y, Z)` with `x = X / Z²` and `y = Y / Z³`, where `Z = 0`
is the point at infinity.
-/

namespace Chainstate

namespace Secp256k1

/-- The prime of the field. -/
def p : Nat := 0xfffffffffffffffffffffffffffffffffffffffffffffffffffffffefffffc2f

/-- The order of the group. -/
def n : Nat := 0xfffffffffffffffffffffffffffffffebaaedce6af48a03bbfd25e8cd0364141

/-! ## Modular arithmetic -/

def subMod (m a b : Nat) : Nat := (a + m - b % m) % m

/-- `base ^ exponent` modulo `m` for an exponent below `2 ^ bits`. -/
def powMod (m base : Nat) : (bits exponent : Nat) → Nat
  | 0, _ => 1 % m
  | bits + 1, e =>
    let half := powMod m base bits (e / 2)
    let square := half * half % m
    if e % 2 = 1 then square * base % m else square

/-- The inverse modulo a prime below `2 ^ 256`. -/
def inverse (m a : Nat) : Nat := powMod m a 256 (m - 2)

/-! ## Points -/

structure Point where
  x : Nat
  y : Nat
  deriving DecidableEq

def Point.isOnCurve (a : Point) : Bool :=
  decide (a.x < p) && decide (a.y < p) && a.y * a.y % p == (a.x * a.x * a.x + 7) % p

def generator : Point :=
  ⟨0x79be667ef9dcbbac55a06295ce870b07029bfcdb2dce28d959f2815b16f81798,
   0x483ada7726a3c4655da4fbfc0e1108a8fd17b448a68554199c47d08ffb10d4b8⟩

structure Projective where
  x : Nat
  y : Nat
  z : Nat

namespace Projective

def infinity : Projective := ⟨1, 1, 0⟩

def ofPoint (a : Point) : Projective := ⟨a.x, a.y, 1⟩

def toPoint? (a : Projective) : Option Point :=
  if a.z = 0 then none
  else
    let w := inverse p a.z
    let w2 := w * w % p
    some ⟨a.x * w2 % p, a.y * (w2 * w % p) % p⟩

def double (a : Projective) : Projective :=
  if a.z = 0 ∨ a.y = 0 then infinity
  else
    let yy := a.y * a.y % p
    let s := 4 * a.x * yy % p
    let m := 3 * a.x * a.x % p
    let x := subMod p (m * m) (2 * s)
    let y := subMod p (m * subMod p s x) (8 * yy * yy)
    ⟨x, y, 2 * a.y * a.z % p⟩

def add (a b : Projective) : Projective :=
  if a.z = 0 then b
  else if b.z = 0 then a
  else
    let aa := a.z * a.z % p
    let bb := b.z * b.z % p
    let u1 := a.x * bb % p
    let u2 := b.x * aa % p
    let s1 := a.y * bb * b.z % p
    let s2 := b.y * aa * a.z % p
    if u1 = u2 then
      if s1 = s2 then double a else infinity
    else
      let h := subMod p u2 u1
      let r := subMod p s2 s1
      let hh := h * h % p
      let hhh := h * hh % p
      let v := u1 * hh % p
      let x := subMod p (subMod p (r * r) hhh) (2 * v)
      let y := subMod p (r * subMod p v x) (s1 * hhh)
      ⟨x, y, h * a.z * b.z % p⟩

/-- The `k`-fold of a point for `k` below `2 ^ bits`. -/
def multiple (a : Projective) : (bits k : Nat) → Projective
  | 0, _ => infinity
  | bits + 1, k =>
    let twice := double (multiple a bits (k / 2))
    if k % 2 = 1 then add twice a else twice

end Projective

/-- The `k`-fold of a point, for `k` below `2 ^ 256`. -/
def multiple (a : Point) (k : Nat) : Projective := (Projective.ofPoint a).multiple 256 k

/-! ## Public keys -/

/-- The point with the given abscissa and parity of the ordinate. -/
def lift? (x : Nat) (odd : Bool) : Option Point :=
  if p ≤ x then none
  else
    let yy := (x * x * x + 7) % p
    let y := powMod p yy 256 ((p + 1) / 4)
    if y * y % p = yy then some ⟨x, if (y % 2 == 1) == odd then y else (p - y) % p⟩ else none

/-- Reads a key. The first byte is 2 or 3 before an abscissa, for an even or an odd ordinate, 5
before an abscissa alone, which stands for the point with the even ordinate, and 4 before both
coordinates. -/
def ofKey? (key : Bytes) : Option Point :=
  match key with
  | 2 :: x => if x.length = 32 then lift? (Bytes.ofBigEndian x) false else none
  | 3 :: x => if x.length = 32 then lift? (Bytes.ofBigEndian x) true else none
  | 4 :: xy =>
    if xy.length = 64 then
      let a : Point := ⟨Bytes.ofBigEndian (xy.take 32), Bytes.ofBigEndian (xy.drop 32)⟩
      if a.isOnCurve then some a else none
    else none
  | 5 :: x => if x.length = 32 then lift? (Bytes.ofBigEndian x) false else none
  | _ => none

end Secp256k1

end Chainstate
