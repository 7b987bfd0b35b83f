-- SUMMARY: Difficulty as a binary floating-point number: quotients rounded to the nearest double.

/-!
# Difficulty

The difficulty of a target is the limit divided by the target, as a double: both are rounded to
the nearest double and so is their quotient. Doubles are computed as their bits from exact
natural numbers, with ties to the even neighbour.
-/

namespace Chainstate

namespace Double

/-- The bits of positive infinity. -/
def infinity : UInt64 := 0x7ff0000000000000

/-- The bits of a number that is not a number. -/
def undefined : UInt64 := 0x7ff8000000000000

/-- `num / den` rounded to the nearest natural number, a tie to the even one. -/
def roundDiv (num den : Nat) : Nat :=
  let q := num / den
  let r := num % den
  if den < 2 * r ∨ (2 * r = den ∧ q % 2 = 1) then q + 1 else q

/-- The least exponent of the last place of a double. -/
def minExponent : Int := -1074

/-- An exponent `e` with `num / den` below `2 ^ (e + 53)` and, above the least exponent, not below
`2 ^ (e + 52)`. -/
def exponentOf (num den : Nat) : Int :=
  let e : Int := (Nat.log2 num : Int) - (Nat.log2 den : Int) - 52
  let fits (e : Int) : Bool :=
    if 0 ≤ e then decide (den <<< (e.toNat + 52) ≤ num)
    else decide (den <<< 52 ≤ num <<< (-e).toNat)
  max minExponent (if fits e then e else e - 1)

/-- The bits of the double nearest to `num / den`, for positive `den`. -/
def ofRatio (num den : Nat) : UInt64 :=
  if num = 0 then 0
  else
    let e := exponentOf num den
    let m := if 0 ≤ e then roundDiv num (den <<< e.toNat) else roundDiv (num <<< (-e).toNat) den
    -- A mantissa that rounds up to the next power of two carries into the exponent field.
    let bits := m + (e - minExponent).toNat <<< 52
    if infinity.toNat ≤ bits then infinity else UInt64.ofNat bits

/-- The double nearest to a natural number, as a natural number; `none` where it is infinite. -/
def nearestNat? (n : Nat) : Option Nat :=
  let e := (exponentOf n 1).toNat
  let rounded := if n = 0 then 0 else roundDiv n (1 <<< e) <<< e
  if 1 <<< 1024 ≤ rounded then none else some rounded

end Double

namespace Target

/-- The bits of the difficulty of `target` under `limit`. -/
def difficulty (limit target : Nat) : UInt64 :=
  if target = 0 then Double.infinity
  else match Double.nearestNat? limit, Double.nearestNat? target with
    | some l, some t => Double.ofRatio l t
    | none, some _ => Double.infinity
    | some _, none => 0
    | none, none => Double.undefined

end Target

end Chainstate
