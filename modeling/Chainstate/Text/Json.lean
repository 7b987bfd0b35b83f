-- SUMMARY: Report values and their indented text.
import Chainstate.Bytes.Hex

/-!
# Report values

Reports are trees of integers, strings, arrays and objects. Their text has one element or field per
line, indented by two spaces per level; arrays and objects without elements stay on one line.
-/

namespace Chainstate

inductive Json where
  | null
  | bool (b : Bool)
  | int (n : Int)
  | string (s : String)
  | array (elements : List Json)
  | object (fields : List (String × Json))

namespace Json

/-! ## Strings -/

/-- A character inside a string: quotes, backslashes and control characters are escaped. -/
def escapeChar (c : Char) : String :=
  if c = '"' then "\\\""
  else if c = '\\' then "\\\\"
  else if c = '\n' then "\\n"
  else if c = '\r' then "\\r"
  else if c = '\t' then "\\t"
  else if c = '\x08' then "\\b"
  else if c = '\x0c' then "\\f"
  else if c.toNat < 0x20 then
    "\\u00" ++ String.ofList [Hex.digit (c.toNat / 16), Hex.digit (c.toNat % 16)]
  else c.toString

def quoted (s : String) : String := "\"" ++ String.join (s.toList.map escapeChar) ++ "\""

/-! ## Text -/

/-- A line break and the indentation of a level. -/
def newline (level : Nat) : String := "\n" ++ String.ofList (List.replicate (2 * level) ' ')

/-- Elements between brackets, each on a line of its own one level deeper. -/
def bracketed (opening closing : String) (level : Nat) (elements : List String) : String :=
  if elements.isEmpty then opening ++ closing
  else opening ++ newline (level + 1) ++ String.intercalate ("," ++ newline (level + 1)) elements
    ++ newline level ++ closing

mutual

def textAt (level : Nat) : Json → String
  | null => "null"
  | bool b => if b then "true" else "false"
  | int n => toString n
  | string s => quoted s
  | array elements => bracketed "[" "]" level (elementsAt (level + 1) elements)
  | object fields => bracketed "\x7b" "\x7d" level (fieldsAt (level + 1) fields)

def elementsAt (level : Nat) : List Json → List String
  | [] => []
  | v :: rest => textAt level v :: elementsAt level rest

def fieldsAt (level : Nat) : List (String × Json) → List String
  | [] => []
  | (name, v) :: rest => (quoted name ++ ": " ++ textAt level v) :: fieldsAt level rest

end

def text (v : Json) : String := textAt 0 v

end Json

end Chainstate
