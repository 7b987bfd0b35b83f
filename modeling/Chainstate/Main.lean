-- SUMMARY: The program: it keeps the database of the chosen network in a file.
import Chainstate.CommandLine
import Chainstate.Store.Image

/-!
# Program

Reads the database that the arguments choose, runs the command line on it, writes the database
back and prints the report. A file that is not there stands for an empty database.
-/

namespace Chainstate

namespace CommandLine

/-- The directory of a network's database. -/
def networkDirectory (p : Place) : String := s!"{p.directory}/{p.network}"

def databaseFile (p : Place) : String := s!"{networkDirectory p}/coins.rows"

def readDatabase (p : Place) : IO RowStore := do
  match ← (IO.FS.readBinFile (databaseFile p)).toBaseIO with
  | .ok data =>
    match RowStore.ofBytes data.toList with
    | .ok db => pure db
    | .error e => throw (IO.userError s!"{databaseFile p}: {e.message}")
  | .error (.noFileOrDirectory ..) => pure RowStore.empty
  | .error e => throw e

def writeDatabase (p : Place) (db : RowStore) : IO Unit := do
  IO.FS.createDirAll (networkDirectory p)
  IO.FS.writeBinFile (databaseFile p) (ByteArray.mk db.encode.toArray)

/-- Prints an answer, and gives the exit status. -/
def finish (a : Answer) : IO UInt32 := do
  match a.report with
  | some r => IO.println r.text
  | none => if a.status = 0 then IO.println usage else IO.eprintln usage
  pure (UInt32.ofNat a.status)

end CommandLine

end Chainstate

open Chainstate CommandLine in
def main (args : List String) : IO UInt32 := do
  match place? args with
  | none => finish (run args DataDirectory.empty).1
  | some p =>
    let db ← readDatabase p
    let (a, dir) := run args (DataDirectory.empty.setDatabase p.network db)
    writeDatabase p (dir.database p.network)
    finish a
