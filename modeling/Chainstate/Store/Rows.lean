-- SUMMARY: The coin database that keeps its tables as rows of bytes, as they are on disk.
import Chainstate.Store.Contract

/-!
# Rows of bytes

Four ordered tables of byte strings. Keys sort as what they stand for: outpoints by their storage
keys, heights most significant byte first, blocks by their digests. A value that does not decode
is corruption of the stored data, not a fault of a block.
-/

namespace Chainstate

structure RowStore where
  tipRows : Table Bytes Bytes
  coinRows : Table Bytes Bytes
  undoRows : Table Bytes Bytes
  stakeRows : Table Bytes Bytes

namespace RowStore

def empty : RowStore := ⟨∅, ∅, ∅, ∅⟩

/-! ## Keys and values -/

/-- The key of the only row of the tip table. -/
def tipKey : Bytes := [0x74, 0x69, 0x70]

def undoKey (height : Nat) : Bytes := Bytes.bigEndian 4 height

/-- The outpoint of a coin row. -/
def readCoinKey (bs : Bytes) : Except Fault OutPoint :=
  match OutPoint.ofKey? bs with
  | some o => .ok o
  | none => .error (.corruption (.coinKey bs.length))

def readTip (bs : Bytes) : Except Fault Tip :=
  (Tip.ofBytes bs).mapError fun e => .corruption (.tip e)

def readCoin (bs : Bytes) : Except Fault Coin :=
  (Coin.ofBytes bs).mapError fun e => .corruption (.coin e)

def readUndo (bs : Bytes) : Except Fault UndoRecord :=
  (UndoRecord.ofBytes bs).mapError fun e => .corruption (.undo e)

def readStake (bs : Bytes) : Except Fault StakeRecord :=
  (StakeRecord.ofBytes bs).mapError fun e => .corruption (.stake e)

/-- The value of a row, where there is one. -/
def look (read : Bytes → Except Fault α) : Option Bytes → Except Fault (Option α)
  | none => .ok none
  | some bs => do pure (some (← read bs))

/-! ## Operations -/

def tip? (db : RowStore) : Except Fault (Option Tip) := look readTip db.tipRows[tipKey]?

def setTip (db : RowStore) (t : Tip) : RowStore :=
  { db with tipRows := db.tipRows.insert tipKey t.encode }

def begin (db : RowStore) (genesis : Digest) : Except Fault RowStore := do
  match ← db.tip? with
  | some _ => pure db
  | none => pure (db.setTip ⟨genesis, 0⟩)

def coin? (db : RowStore) (o : OutPoint) : Except Fault (Option Coin) :=
  look readCoin db.coinRows[o.key]?

def fetch (db : RowStore) (os : List OutPoint) : Except Fault (Table OutPoint (Option Coin)) :=
  os.foldlM (fun t o => do pure (t.insert o (← db.coin? o))) ∅

def removeRows (rows : Table Bytes Bytes) (os : List OutPoint) : Table Bytes Bytes :=
  os.foldl (fun t o => t.erase o.key) rows

def addRows (rows : Table Bytes Bytes) (ocs : List (OutPoint × Coin)) : Table Bytes Bytes :=
  ocs.foldl (fun t oc => t.insert oc.1.key oc.2.encode) rows

def undo? (db : RowStore) (height : Nat) : Except Fault (Option UndoRecord) :=
  look readUndo db.undoRows[undoKey height]?

def commit (db : RowStore) (changes : List CoinChange) (old new : Tip) (undo : UndoRecord) :
    Except Fault RowStore := do
  Tip.check (← db.tip?) old
  let rows := removeRows db.coinRows (CoinChange.deletions changes)
  let db := { db with
    coinRows := addRows rows (CoinChange.insertions changes)
    undoRows := db.undoRows.insert (undoKey (old.height + 1)) undo.encode }
  pure (db.setTip new)

def rewind (db : RowStore) : Except Fault (Tip × RowStore) := do
  match ← db.tip? with
  | none => throw .uninitialized
  | some tip =>
    match ← db.undo? tip.height with
    | none => throw (.missingUndo tip.height)
    | some undo =>
      let previous ← undo.target tip.height
      let db := { db with
        coinRows := addRows (removeRows db.coinRows undo.remove) undo.restore
        undoRows := db.undoRows.erase (undoKey tip.height) }
      pure (previous, db.setTip previous)

def putStakes (db : RowStore) (items : List (Digest × StakeRecord)) : RowStore :=
  { db with
    stakeRows := items.foldl (fun t i => t.insert i.1.bytes i.2.encode) db.stakeRows }

def stake? (db : RowStore) (block : Digest) : Except Fault (Option StakeRecord) :=
  look readStake db.stakeRows[block.bytes]?

def coins (db : RowStore) : Except Fault (List (OutPoint × Coin)) :=
  db.coinRows.toList.mapM fun row => do
    let o ← readCoinKey row.1
    let c ← readCoin row.2
    pure (o, c)

instance : CoinStore RowStore where
  empty := empty
  begin := begin
  tip? := tip?
  fetch := fetch
  commit := commit
  rewind := rewind
  undo? := undo?
  putStakes db items := .ok (db.putStakes items)
  stake? := stake?
  coins := coins

end RowStore

end Chainstate
