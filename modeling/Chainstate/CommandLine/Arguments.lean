-- SUMMARY: Reading the arguments of one level of a command line.

/-!
# Arguments

A command line has levels: options and a command, then the options and operands of the command.
`Level.read` takes the arguments of a level one after the other. The value of an option may stand
in the same argument or in the next one, and it is stored when the argument after it is looked at,
so that a request for help that comes too late does not hide a bad value.
-/

namespace Chainstate

namespace CommandLine

/-! ## Forms of arguments -/

inductive Token where
  /-- Two hyphens: what follows are operands. -/
  | separator
  /-- Two hyphens, a name, and perhaps a value after an equals sign. -/
  | long (name : String) (value : Option String)
  /-- One hyphen and a letter, with what stands behind it. -/
  | short (letter : Char) (rest : List Char)
  | plain (text : String)

def Token.of (arg : String) : Token :=
  match arg.toList with
  | ['-', '-'] => .separator
  | '-' :: '-' :: cs =>
    let name := cs.takeWhile (· != '=')
    let value := match cs.dropWhile (· != '=') with
      | [] => none
      | _ :: v => some (String.ofList v)
    .long (String.ofList name) value
  | '-' :: c :: cs => .short c cs
  | _ => .plain arg

/-- The value in the same argument as a letter; an equals sign may stand before it. -/
def attached? : List Char → Option String
  | [] => none
  | '=' :: cs => some (String.ofList cs)
  | cs => some (String.ofList cs)

/-! ## Levels -/

/-- Why reading ends without a result. -/
inductive Stop where
  /-- Help or the version was asked for. -/
  | shown
  | misuse
  deriving DecidableEq, Repr

/-- Stores a value; refuses one that is malformed or was given before. -/
abbrev Setter (α : Type) := String → α → Option α

structure Level (α : Type) where
  /-- The options that take a value, by name. -/
  option? : (name : String) → Option (Setter α)
  /-- The options that take a value, by letter. -/
  letter? : (letter : Char) → Option (Setter α)
  /-- The operands, by position. -/
  operand? : (position : Nat) → Option (Setter α)
  isCommand : (word : String) → Bool
  /-- Whether the version can be asked for. -/
  hasVersion : Bool

/-- What has been read and not been stored. -/
inductive Pending (α : Type) where
  | nothing
  /-- An option without its value. -/
  | option (set : Setter α)
  | value (set : Setter α) (text : String)

def Pending.store (a : α) : Pending α → Except Stop α
  | nothing => .ok a
  | option _ => .error .misuse
  | value set text =>
    match set text a with
    | some a => .ok a
    | none => .error .misuse

/-- How far the reading of a level has come. -/
structure Progress (α : Type) where
  stored : α
  pending : Pending α
  /-- The number of operands. -/
  operands : Nat
  /-- A separator has been read. -/
  separated : Bool

/-- A level that has been read, with the command that ended it and the arguments after that. -/
structure LevelResult (α : Type) where
  stored : α
  pending : Pending α
  command : Option (String × List String)

namespace Progress

def start (a : α) : Progress α := ⟨a, .nothing, 0, false⟩

/-- The next operand. -/
def operand (level : Level α) (s : Progress α) (text : String) : Except Stop (Progress α) :=
  match level.operand? s.operands with
  | none => .error .misuse
  | some set => do
    let stored ← s.pending.store s.stored
    pure { s with stored, pending := .value set text, operands := s.operands + 1 }

/-- An option with or without its value. -/
def option (s : Progress α) (set : Setter α) (value : Option String) :
    Except Stop (Progress α) := do
  let stored ← s.pending.store s.stored
  match value with
  | none => pure { s with stored, pending := .option set }
  | some text =>
    let stored ← (Pending.value set text).store stored
    pure { s with stored, pending := .nothing }

/-- A request that ends the reading. -/
def inform (s : Progress α) : Except Stop (Progress α) := do
  let _ ← s.pending.store s.stored
  throw .shown

/-- An option by name. -/
def long (level : Level α) (s : Progress α) (name : String) (value : Option String) :
    Except Stop (Progress α) :=
  if name = "help" ∨ (name = "version" ∧ level.hasVersion) then
    if value.isSome then .error .misuse else s.inform
  else match level.option? name with
    | some set => s.option set value
    | none => .error .misuse

/-- An option by letter. -/
def short (level : Level α) (s : Progress α) (letter : Char) (rest : List Char) :
    Except Stop (Progress α) :=
  if letter = 'h' ∨ (letter = 'V' ∧ level.hasVersion) then s.inform
  else match level.letter? letter with
    | some set => s.option set (attached? rest)
    | none => .error .misuse

/-- One argument that is no command. -/
def step (level : Level α) (s : Progress α) (arg : String) : Except Stop (Progress α) :=
  if s.separated then s.operand level arg
  else match s.pending, Token.of arg with
    | .option set, .plain text => .ok { s with pending := .value set text }
    | .option _, _ => .error .misuse
    | _, .separator => .ok { s with separated := true }
    | _, .long name value => s.long level name value
    | _, .short letter rest => s.short level letter rest
    | _, .plain text => s.operand level text

/-- Whether an argument would be taken as the value of the option before it. -/
def awaitsValue (s : Progress α) : Bool :=
  match s.pending with
  | .option _ => true
  | _ => false

end Progress

/-- Reads arguments up to the end or to a command. -/
def Level.readFrom (level : Level α) : Progress α → List String → Except Stop (LevelResult α)
  | s, [] => .ok ⟨s.stored, s.pending, none⟩
  | s, arg :: rest =>
    if !s.separated && !s.awaitsValue && level.isCommand arg then
      .ok ⟨s.stored, s.pending, some (arg, rest)⟩
    else do
      let s ← s.step level arg
      level.readFrom s rest

def Level.read (level : Level α) (a : α) (args : List String) : Except Stop (LevelResult α) :=
  level.readFrom (Progress.start a) args

/-- Reads a level that has no commands below it. -/
def Level.readLast (level : Level α) (a : α) (args : List String) : Except Stop α := do
  let r ← level.read a args
  r.pending.store r.stored

end CommandLine

end Chainstate
