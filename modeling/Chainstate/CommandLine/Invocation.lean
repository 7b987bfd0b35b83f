-- SUMMARY: The commands of the program, their options, and how they are read from arguments.
import Chainstate.CommandLine.Arguments
import Chainstate.Store.Backend
import Chainstate.Text.Decimal

namespace Chainstate

namespace CommandLine

/-! ## Commands -/

inductive Command where
  | init
  | tip
  | coins (limit : Option Nat)
  | undoRecord (height : Nat)
  | rewind (blocks : Nat)
  | info
  deriving DecidableEq, Repr

/-- What the arguments ask for. -/
structure Invocation where
  dataDirectory : String
  network : String
  backend : Backend
  command : Command
  deriving DecidableEq, Repr

/-! ## Options of the program -/

structure ProgramOptions where
  dataDirectory : Option String
  network : Option String
  backend : Option Backend
  logLevel : Option String

namespace ProgramOptions

def none : ProgramOptions := ⟨.none, .none, .none, .none⟩

def setDataDirectory : Setter ProgramOptions := fun text o =>
  if o.dataDirectory.isSome || text.isEmpty then .none
  else some { o with dataDirectory := some text }

def setNetwork : Setter ProgramOptions := fun text o =>
  if o.network.isSome then .none else some { o with network := some text }

def setBackend : Setter ProgramOptions := fun text o =>
  match o.backend, Backend.ofName text with
  | .none, .ok b => some { o with backend := some b }
  | _, _ => .none

def setLogLevel : Setter ProgramOptions := fun text o =>
  if o.logLevel.isSome then .none else some { o with logLevel := some text }

end ProgramOptions

def isCommandName (word : String) : Bool :=
  ["init", "tip", "coins", "rewind-data", "rewind", "info", "help"].contains word

def programLevel : Level ProgramOptions where
  option?
    | "datadir" => some ProgramOptions.setDataDirectory
    | "network" => some ProgramOptions.setNetwork
    | "backend" => some ProgramOptions.setBackend
    | "log-level" => some ProgramOptions.setLogLevel
    | _ => none
  letter?
    | 'd' => some ProgramOptions.setDataDirectory
    | _ => none
  operand? _ := none
  isCommand := isCommandName
  hasVersion := true

/-! ## Options of the commands -/

/-- A level whose only option or operand is a number. -/
def numberLevel (option operand : Option String) (read : String → Option Nat) :
    Level (Option Nat) :=
  let set : Setter (Option Nat) := fun text old =>
    if old.isSome then none else (read text).map some
  { option? := fun name => if some name = option then some set else none
    letter? := fun _ => none
    operand? := fun position => if position = 0 then operand.map fun _ => set else none
    isCommand := fun _ => false
    hasVersion := false }

/-- A level that takes nothing. -/
def bareLevel : Level (Option Nat) := numberLevel none none fun _ => none

/-- Heights and numbers of blocks have 32 bits. -/
def read32? : String → Option Nat := Decimal.readSigned? 0x100000000

/-- Numbers of entries have 64 bits. -/
def read64? : String → Option Nat := Decimal.readNat? 0x10000000000000000

/-- Help on one command, or on all of them. -/
def readHelp : List String → Stop
  | [] => .shown
  | [word] => if isCommandName word then .shown else .misuse
  | _ => .misuse

/-- The command of a name with its own arguments. -/
def readCommand (name : String) (args : List String) : Except Stop Command := do
  match name with
  | "init" =>
    let _ ← bareLevel.readLast none args
    pure .init
  | "tip" =>
    let _ ← bareLevel.readLast none args
    pure .tip
  | "coins" => do
    let limit ← (numberLevel (some "limit") none read64?).readLast none args
    pure (.coins limit)
  | "rewind-data" => do
    match ← (numberLevel none (some "height") read32?).readLast none args with
    | some height => pure (.undoRecord height)
    | none => throw .misuse
  | "rewind" => do
    let blocks ← (numberLevel (some "blocks") none read32?).readLast none args
    pure (.rewind (blocks.getD 1))
  | "info" =>
    let _ ← bareLevel.readLast none args
    pure .info
  | "help" => throw (readHelp args)
  | _ => throw .misuse

/-- What the program accepts, for people. -/
def usage : String :=
  "usage: [--datadir PATH] [--network NAME] [--backend NAME] [--log-level FILTER] COMMAND\n"
    ++ "commands: init, tip, coins [--limit N], rewind-data HEIGHT, rewind [--blocks N], info"

/-- The invocation that the arguments of the program ask for. -/
def readInvocation (args : List String) : Except Stop Invocation := do
  let r ← programLevel.read ProgramOptions.none args
  match r.command with
  | none => throw .misuse
  | some (name, rest) =>
    let command ← readCommand name rest
    let options ← r.pending.store r.stored
    pure
      { dataDirectory := options.dataDirectory.getD "./chainstate-data"
        network := options.network.getD "regtest"
        backend := options.backend.getD .btree
        command }

end CommandLine

end Chainstate
