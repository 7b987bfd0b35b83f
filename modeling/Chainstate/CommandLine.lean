-- SUMMARY: What the commands do to the database of a network, and the answers of the program.
import Chainstate.CommandLine.Invocation
import Chainstate.CommandLine.Report
import Chainstate.Engine
import Chainstate.Store.Rows

/-!
# Command line

A data directory has one database per network. A command works on the database of one network and
answers with a report and an exit status; `run` is the program as a function of its arguments and
of the data directory.
-/

namespace Chainstate

namespace CommandLine

/-! ## Answers -/

/-- What the program leaves behind: its exit status and, unless the arguments could not be used, a
report. -/
structure Answer where
  status : Nat
  report : Option Report

namespace Answer

def success (r : Report) : Answer := ⟨0, some r⟩

def failure (message : String) : Answer := ⟨1, some (.failure message)⟩

/-- The answer to arguments that name nothing to do. -/
def stopped : Stop → Answer
  | .shown => ⟨0, none⟩
  | .misuse => ⟨2, none⟩

end Answer

/-! ## Commands -/

def coinsReport (db : RowStore) (limit : Option Nat) : Except Fault Report := do
  let all ← db.coins
  let total := totalAmount (all.map fun oc => oc.2.amount)
  let shown := match limit with
    | some n => all.take n
    | none => all
  pure (.coins all.length total shown)

def infoReport (net : Network) (backend : Backend) (db : RowStore) : Except Fault Report := do
  let tip ← db.tip?
  pure (.info
    { network := net.name
      backend := backend.name
      genesis := net.genesisDigest
      proofOfStake := net.params.isProofOfStake
      workLimit := CompactTarget.ofTarget net.params.workLimit
      targetSpacing := net.params.targetSpacing
      coinbaseMaturity := net.params.coinbaseMaturity
      maxReorganization := net.params.maxReorganization
      tip })

/-- Takes blocks back until there are enough or one cannot be taken back. -/
def rewindBlocks (blocks : Nat) : MaintainM RowStore Tip := do
  let _ ← Engine.tip
  Engine.rewindMany blocks
  Engine.tip

/-- Runs a command on the database of a network. What a failing command has changed stays. -/
def Command.run (net : Network) (backend : Backend) (command : Command) :
    MaintainM RowStore Report := do
  match command with
  | .init => do pure (.tip (← Engine.openAtGenesis))
  | .tip => do pure (.tip (← Engine.tip))
  | .coins limit => do Engine.lift (coinsReport (← get).store limit)
  | .undoRecord height => do
    pure (.undoRecord height (← Engine.lift ((← get).store.undo? height)))
  | .rewind blocks => do pure (.tip (← rewindBlocks blocks))
  | .info => do Engine.lift (infoReport net backend (← get).store)

/-- The answer of a command and the database after it. -/
def Command.answer (net : Network) (backend : Backend) (command : Command) (db : RowStore) :
    Answer × RowStore :=
  match backend.check with
  | .error e => (.failure e.message, db)
  | .ok () =>
    match command.run net backend (Engine.ofStore net db) with
    | .ok r e => (.success r, e.store)
    | .error f e => (.failure f.message, e.store)

def unknownNetwork (name : String) : Answer := .failure s!"unknown network {Text.quote name}"

/-! ## Data directories -/

/-- The databases of a data directory, by the names of their networks. -/
structure DataDirectory where
  databases : List (String × RowStore)

namespace DataDirectory

def empty : DataDirectory := ⟨[]⟩

/-- A database that was never written is empty. -/
def database (dir : DataDirectory) (name : String) : RowStore :=
  (dir.databases.lookup name).getD RowStore.empty

def setDatabase (dir : DataDirectory) (name : String) (db : RowStore) : DataDirectory :=
  ⟨(name, db) :: dir.databases.filter fun d => d.1 != name⟩

end DataDirectory

/-- The program: its answer to arguments and the data directory after it. -/
def run (args : List String) (dir : DataDirectory) : Answer × DataDirectory :=
  match readInvocation args with
  | .error s => (.stopped s, dir)
  | .ok i =>
    match Network.ofName? i.network with
    | none => (unknownNetwork i.network, dir)
    | some net =>
      let (answer, db) := i.command.answer net i.backend (dir.database net.name)
      (answer, dir.setDatabase net.name db)

/-- Where the database lies that a run works on. -/
structure Place where
  directory : String
  /-- The name of the network. -/
  network : String

/-- The place that arguments choose, if they lead to a database at all. -/
def place? (args : List String) : Option Place := do
  let i ← (readInvocation args).toOption
  let net ← Network.ofName? i.network
  let _ ← i.backend.check.toOption
  pure ⟨i.dataDirectory, net.name⟩

end CommandLine

end Chainstate
