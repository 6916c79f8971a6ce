import PlistCodec.Base64
import PlistCodec.Binary64.Decimal
import PlistCodec.Date.Rfc3339
import PlistCodec.Tree.UidMarker

/-!
# Writing XML property lists

Every element stands on lines of its own, indented by one tab for each collection around it.
References have no element and are written as their markers.
-/

namespace PlistCodec.XmlPlist

/-! ## Text -/

/-- A character as it stands in the content of an element. -/
def escapeChar (c : Char) : String :=
  if c = '<' then "&lt;"
  else if c = '>' then "&gt;"
  else if c = '&' then "&amp;"
  else if c = '\'' then "&apos;"
  else if c = '"' then "&quot;"
  else if c = '\r' then "&#13;"
  else String.singleton c

/-- A text as it stands in the content of an element. -/
def escape (text : String) : String :=
  text.toList.foldl (fun out c => out ++ escapeChar c) ""

/-! ## Lines -/

/-- A line at a depth. -/
def indented (depth : Nat) (line : String) : String := "".pushn '\t' depth ++ line

/-- The line of an element without elements in it. -/
def scalarLine (depth : Nat) (element content : String) : String :=
  indented depth ("<" ++ element ++ ">" ++ content ++ "</" ++ element ++ ">")

/-- The lines of a collection. -/
def collectionLines (depth : Nat) (element : String) (members : List String) : List String :=
  if members.isEmpty then [indented depth ("<" ++ element ++ "/>")]
  else
    indented depth ("<" ++ element ++ ">") :: members
      ++ [indented depth ("</" ++ element ++ ">")]

/-- The line of a key. -/
def keyLine (depth : Nat) (key : String) : String := scalarLine depth "key" (escape key)

/-- Bytes that one line of data holds. -/
def dataLineLength : Nat := 51

/-- A byte string in pieces of one line each. -/
def dataPieces (bs : Bytes) : List Bytes :=
  if bs.isEmpty then []
  else bs.take dataLineLength :: dataPieces (bs.drop dataLineLength)
termination_by bs.length
decreasing_by
  rw [List.length_drop]
  have : bs.length ≠ 0 := by simp_all
  have : 0 < dataLineLength := by decide
  omega

/-- The lines of a byte string. -/
def dataLines (depth : Nat) (bs : Bytes) : List String :=
  indented depth "<data>"
    :: (dataPieces bs).map (fun piece => indented depth (Base64.encode piece))
    ++ [indented depth "</data>"]

mutual

/-- The lines of a tree. -/
def lines (depth : Nat) : Tree → List String
  | .bool true => [indented depth "<true/>"]
  | .bool false => [indented depth "<false/>"]
  | .int value => [scalarLine depth "integer" (toString value)]
  | .real value => [scalarLine depth "real" value.positional]
  | .date value => [scalarLine depth "date" value.xmlText]
  | .string text => [scalarLine depth "string" (escape text)]
  | .data bytes => dataLines depth bytes
  | .uid slot =>
    collectionLines depth "dict"
      [keyLine (depth + 1) Tree.uidKey, scalarLine (depth + 1) "integer" (toString slot)]
  | .array items => collectionLines depth "array" (itemLines (depth + 1) items)
  | .dict entries => collectionLines depth "dict" (entryLines (depth + 1) entries)
termination_by structural t => t

/-- The lines of the items of an array. -/
def itemLines (depth : Nat) : List Tree → List String
  | [] => []
  | t :: ts => lines depth t ++ itemLines depth ts
termination_by structural ts => ts

/-- The lines of the entries of a dictionary. -/
def entryLines (depth : Nat) : List (String × Tree) → List String
  | [] => []
  | (key, t) :: es => keyLine depth key :: lines depth t ++ entryLines depth es
termination_by structural es => es

end

/-! ## Documents -/

/-- The lines in front of the outermost element. -/
def heading : List String :=
  ["<?xml version=\"1.0\" encoding=\"UTF-8\"?>",
   "<!DOCTYPE plist PUBLIC \"-//Apple//DTD PLIST 1.0//EN\" "
     ++ "\"http://www.apple.com/DTDs/PropertyList-1.0.dtd\">",
   "<plist version=\"1.0\">"]

/-- The text of a property list, without a line end behind its last line. -/
def write (t : Tree) : String :=
  "\n".intercalate (heading ++ lines 0 t ++ ["</plist>"])

end PlistCodec.XmlPlist
