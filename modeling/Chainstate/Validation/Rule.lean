-- SUMMARY: The rules that a network can register, their stages, and which registrations fit together.
import Chainstate.Failure

/-!
# Rules

A network registers a list of rules. They run by stage and, within a stage, in the order of
registration, and that order matters: some rules read what earlier ones have set.
`RuleSet.build` refuses lists whose coin rules cannot work in the order given.
-/

namespace Chainstate

inductive Stage where
  | header
  | integrity
  | contents
  | coins
  deriving DecidableEq, Repr

inductive RuleId where
  -- Header
  | headerTime
  | workDifficulty
  | headerVersion
  -- Integrity
  | merkleRoot
  | blockSignature
  -- Contents
  | contentFlags
  | lockTimes
  | coinbaseHeight
  | blockSize
  | coinbasePosition
  | transactions
  | writtenSigOps
  | lastWorkBlock
  | coinstakeShape
  | kindDifficulty
  -- Coins
  | coinFlags
  | loadView
  | connectWork
  | coldStaking
  | connectStake
  | commitView
  deriving DecidableEq, Repr

namespace RuleId

def stage : RuleId → Stage
  | headerTime | workDifficulty | headerVersion => .header
  | merkleRoot | blockSignature => .integrity
  | contentFlags | lockTimes | coinbaseHeight | blockSize | coinbasePosition | transactions
  | writtenSigOps | lastWorkBlock | coinstakeShape | kindDifficulty => .contents
  | coinFlags | loadView | connectWork | coldStaking | connectStake | commitView => .coins

/-- Whether the rule works on the coins that `loadView` loads. -/
def needsView : RuleId → Bool
  | connectWork | coldStaking | connectStake | commitView => true
  | _ => false

end RuleId

structure RuleSet where
  header : List RuleId
  integrity : List RuleId
  contents : List RuleId
  coins : List RuleId
  deriving DecidableEq

namespace RuleSet

/-- The first commit, if there is one, is the last rule. -/
def commitsLast : List RuleId → Bool
  | [] => true
  | id :: rest => if id == .commitView then rest.isEmpty else commitsLast rest

/-- Every rule that needs the view comes after one that loads it. -/
def loadsFirst : (loaded : Bool) → List RuleId → Bool
  | _, [] => true
  | loaded, id :: rest => (loaded || !id.needsView) && loadsFirst (loaded || id == .loadView) rest

/-- Sorts registered rules by stage. -/
def build (ids : List RuleId) : Except Fault RuleSet :=
  let of (s : Stage) : List RuleId := ids.filter fun id => id.stage == s
  if !commitsLast (of .coins) then .error (.ruleOrder .commitNotLast)
  else if !loadsFirst false (of .coins) then .error (.ruleOrder .viewBeforeLoad)
  else .ok ⟨of .header, of .integrity, of .contents, of .coins⟩

end RuleSet

end Chainstate
