import PlistCodec.Bytes
import PlistCodec.Text.Formless

/-!
# Quoted texts

Reports show paths between quotation marks.  Quotation marks and backslashes in a path have a
backslash in front, some controls have a letter of their own, and characters without a form are
shown by their numbers.
-/

namespace PlistCodec.Quoted

/-- A character as it stands between quotation marks. -/
def escapeChar (c : Char) : String :=
  if c = '\x00' then "\\0"
  else if c = '\t' then "\\t"
  else if c = '\r' then "\\r"
  else if c = '\n' then "\\n"
  else if c = '\\' || c = '"' || c = '\'' then "\\" ++ String.singleton c
  else if isFormless c then "\\u\x7b" ++ Bytes.hex c.toNat ++ "\x7d"
  else String.singleton c

/-- A text between quotation marks. -/
def quote (text : String) : String :=
  "\"" ++ String.join (text.toList.map escapeChar) ++ "\""

end PlistCodec.Quoted
