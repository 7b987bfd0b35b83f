-- SUMMARY: A database of rows as one byte string, as it is kept in a file.
import Chainstate.Store.Rows

namespace Chainstate

namespace RowStore

/-- A key and a value, each after its size. -/
def encodeRow (row : Bytes × Bytes) : Bytes := VarBytes.encode row.1 ++ VarBytes.encode row.2

def decodeRow : Decoder (Bytes × Bytes) := do
  let key ← VarBytes.decode
  let value ← VarBytes.decode
  pure (key, value)

/-- The rows of a table in key order, after their number. -/
def encodeRows (rows : Table Bytes Bytes) : Bytes := encodeList encodeRow rows.toList

def decodeRows : Decoder (Table Bytes Bytes) := do
  let rows ← decodeList decodeRow
  pure (Std.ExtTreeMap.ofList rows compare)

/-- The four tables one after the other. -/
def encode (db : RowStore) : Bytes :=
  encodeRows db.tipRows ++ encodeRows db.coinRows ++ encodeRows db.undoRows
    ++ encodeRows db.stakeRows

def decode : Decoder RowStore := do
  let tipRows ← decodeRows
  let coinRows ← decodeRows
  let undoRows ← decodeRows
  let stakeRows ← decodeRows
  pure ⟨tipRows, coinRows, undoRows, stakeRows⟩

def ofBytes (bs : Bytes) : Except DecodeError RowStore := Decoder.exactly decode bs

end RowStore

end Chainstate
