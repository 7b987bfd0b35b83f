-- SUMMARY: Text between double quotes with everything invisible escaped.
import Chainstate.Bytes.Hex
import Chainstate.Text.Invisible

namespace Chainstate

namespace Text

/-- A character as it stands between double quotes: quotes, backslashes and controls escaped, and
whatever has no visible form as its code point. -/
def quoteChar (c : Char) : String :=
  if c = '\x00' then "\\0"
  else if c = '\t' then "\\t"
  else if c = '\n' then "\\n"
  else if c = '\r' then "\\r"
  else if c = '\\' then "\\\\"
  else if c = '"' then "\\\""
  else if c.toNat < 0x20 || isInvisible c then "\\u\x7b" ++ Hex.ofNat c.toNat ++ "\x7d"
  else c.toString

def quote (s : String) : String := "\"" ++ String.join (s.toList.map quoteChar) ++ "\""

end Text

end Chainstate
