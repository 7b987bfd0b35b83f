-- SUMMARY: The coin database that keeps its tables as values.
import Chainstate.Store.Contract

namespace Chainstate

structure MemoryStore where
  tip : Option Tip
  coinTable : Table OutPoint Coin
  undoTable : Table Nat UndoRecord
  stakeTable : Table Digest StakeRecord

namespace MemoryStore

def empty : MemoryStore := ⟨none, ∅, ∅, ∅⟩

def begin (db : MemoryStore) (genesis : Digest) : MemoryStore :=
  match db.tip with
  | none => { db with tip := some ⟨genesis, 0⟩ }
  | some _ => db

/-- The coins without some outpoints. -/
def removeCoins (coins : Table OutPoint Coin) (os : List OutPoint) : Table OutPoint Coin :=
  os.foldl (fun t o => t.erase o) coins

/-- The coins with some more, each in place of what stood under its outpoint. -/
def addCoins (coins : Table OutPoint Coin) (ocs : List (OutPoint × Coin)) : Table OutPoint Coin :=
  ocs.foldl (fun t oc => t.insert oc.1 oc.2) coins

def fetch (db : MemoryStore) (os : List OutPoint) : Table OutPoint (Option Coin) :=
  os.foldl (fun t o => t.insert o db.coinTable[o]?) ∅

def commit (db : MemoryStore) (changes : List CoinChange) (old new : Tip) (undo : UndoRecord) :
    Except Fault MemoryStore := do
  Tip.check db.tip old
  let coins := removeCoins db.coinTable (CoinChange.deletions changes)
  pure { db with
    tip := some new
    coinTable := addCoins coins (CoinChange.insertions changes)
    undoTable := db.undoTable.insert (old.height + 1) undo }

def rewind (db : MemoryStore) : Except Fault (Tip × MemoryStore) :=
  match db.tip with
  | none => .error .uninitialized
  | some tip =>
    match db.undoTable[tip.height]? with
    | none => .error (.missingUndo tip.height)
    | some undo => do
      let previous ← undo.target tip.height
      pure (previous, { db with
        tip := some previous
        coinTable := addCoins (removeCoins db.coinTable undo.remove) undo.restore
        undoTable := db.undoTable.erase tip.height })

def putStakes (db : MemoryStore) (items : List (Digest × StakeRecord)) : MemoryStore :=
  { db with stakeTable := items.foldl (fun t i => t.insert i.1 i.2) db.stakeTable }

instance : CoinStore MemoryStore where
  empty := empty
  begin db genesis := .ok (db.begin genesis)
  tip? db := .ok db.tip
  fetch db os := .ok (db.fetch os)
  commit := commit
  rewind := rewind
  undo? db height := .ok db.undoTable[height]?
  putStakes db items := .ok (db.putStakes items)
  stake? db block := .ok db.stakeTable[block]?
  coins db := .ok db.coinTable.toList

end MemoryStore

end Chainstate
