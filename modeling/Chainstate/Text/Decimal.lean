-- SUMMARY: Reading decimal numbers with a sign.

namespace Chainstate

namespace Decimal

def digitValue? (c : Char) : Option Nat :=
  if '0' ≤ c ∧ c ≤ '9' then some (c.toNat - 48) else none

/-- The number written by one or more digits. -/
def readDigits? (cs : List Char) : Option Nat :=
  if cs.isEmpty then none
  else cs.foldl (fun acc c => do pure (10 * (← acc) + (← digitValue? c))) (some 0)

/-- A natural number below a bound; a plus sign may stand in front. -/
def readNat? (bound : Nat) (s : String) : Option Nat := do
  let n ← match s.toList with
    | '+' :: cs => readDigits? cs
    | cs => readDigits? cs
  if n < bound then some n else none

/-- An integer from zero up to a bound; a sign may stand in front, also before a zero. -/
def readSigned? (bound : Nat) (s : String) : Option Nat :=
  match s.toList with
  | '-' :: cs => do if (← readDigits? cs) = 0 then some 0 else none
  | _ => readNat? bound s

end Decimal

end Chainstate
