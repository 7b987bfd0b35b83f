-- SUMMARY: What every coin database does, and how a list of changes is split for it.
import Chainstate.Coin.Undo
import Chainstate.Failure
import Chainstate.Stake.Record

/-!
# Coin databases

A coin database holds the tip, the unspent coins, an undo record per height and a stake record
per block. An operation that fails changes nothing: it gives back no new database.
-/

namespace Chainstate

class CoinStore (σ : Type) where
  /-- A database in which nothing has been stored. -/
  empty : σ
  /-- Records the genesis block as the tip of a database without one. -/
  begin : σ → (genesis : Digest) → Except Fault σ
  tip? : σ → Except Fault (Option Tip)
  /-- One entry per outpoint, in outpoint order; nothing stands for spent and unknown ones. -/
  fetch : σ → List OutPoint → Except Fault (Table OutPoint (Option Coin))
  /-- Applies a block's changes on top of the tip `old`, deletions first, and keeps `undo` under
  the height above `old`. -/
  commit : σ → List CoinChange → (old new : Tip) → (undo : UndoRecord) → Except Fault σ
  /-- Takes the block at the tip back. -/
  rewind : σ → Except Fault (Tip × σ)
  undo? : σ → (height : Nat) → Except Fault (Option UndoRecord)
  putStakes : σ → List (Digest × StakeRecord) → Except Fault σ
  stake? : σ → (block : Digest) → Except Fault (Option StakeRecord)
  /-- Every coin in outpoint order. -/
  coins : σ → Except Fault (List (OutPoint × Coin))

/-! ## Splitting changes -/

namespace CoinChange

/-- The outpoint that a change deletes: its coin is spent, or is of no use to anyone. -/
def deletion? (c : CoinChange) : Option OutPoint :=
  match c.coin with
  | none => some c.outpoint
  | some coin => if coin.isPrunable then some c.outpoint else none

/-- The coin that a change stores. -/
def insertion? (c : CoinChange) : Option (OutPoint × Coin) :=
  match c.coin with
  | none => none
  | some coin => if coin.isPrunable then none else some (c.outpoint, coin)

/-- The deletions of a list of changes, sorted. -/
def deletions (changes : List CoinChange) : List OutPoint :=
  sortBy (fun a b => (compare a b).isLE) (changes.filterMap deletion?)

/-- The insertions of a list of changes, sorted. -/
def insertions (changes : List CoinChange) : List (OutPoint × Coin) :=
  sortBy (fun a b => (compare a.1 b.1).isLE) (changes.filterMap insertion?)

end CoinChange

/-! ## Checks shared by the databases -/

/-- The stored tip is the one that a block extends. -/
def Tip.check (stored : Option Tip) (expected : Tip) : Except Fault Unit :=
  if stored = some expected then .ok ()
  else .error (.tipMismatch expected.digest (stored.map Tip.digest))

/-- The tip that an undo record goes back to. -/
def UndoRecord.target (height : Nat) (r : UndoRecord) : Except Fault Tip :=
  match r.previousTip with
  | some t => .ok t
  | none => .error (.corruption (.noPreviousTip height))

end Chainstate
