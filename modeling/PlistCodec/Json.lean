import PlistCodec.Base64
import PlistCodec.Binary64.Decimal
import PlistCodec.Date.ReferenceSeconds
import PlistCodec.Date.Rfc3339
import PlistCodec.Tree.UidMarker

/-!
# JSON

`Json.ofTree` turns a property list into JSON: data become base64 texts, dates become RFC 3339
texts as far as the calendar goes, and references take the form of their markers.  The order of
entries is kept.  `compact` writes JSON without white space and `pretty` one member to a line.
-/

namespace PlistCodec

/-- A JSON value whose objects have ordered members. -/
inductive Json where
  /-- A truth value. -/
  | bool (value : Bool)
  /-- An integer. -/
  | int (value : Int)
  /-- A real; one that is not finite is written as `null`. -/
  | real (value : Binary64)
  /-- A text. -/
  | string (text : String)
  /-- A list of values. -/
  | array (items : List Json)
  /-- An object, by its members in order. -/
  | object (members : List (String × Json))
deriving Repr, Inhabited

namespace Json

/-! ## From property lists -/

/-- A date as a text, or as seconds from the reference date if it has no calendar. -/
def ofDate (d : Date) : Json :=
  match d.format? with
  | some text => .string text
  | none => .real d.lossyReferenceSeconds

mutual

/-- A property list as JSON. -/
def ofTree : Tree → Json
  | .bool value => .bool value
  | .int value => .int value
  | .real value => .real value
  | .date value => ofDate value
  | .string text => .string text
  | .data bytes => .string (Base64.encode bytes)
  | .uid slot => .object [(Tree.uidKey, .int slot)]
  | .array items => .array (ofItems items)
  | .dict entries => .object (ofEntries entries)
termination_by structural t => t

/-- The items of an array as JSON. -/
def ofItems : List Tree → List Json
  | [] => []
  | t :: ts => ofTree t :: ofItems ts
termination_by structural ts => ts

/-- The entries of a dictionary as members. -/
def ofEntries : List (String × Tree) → List (String × Json)
  | [] => []
  | (key, t) :: es => (key, ofTree t) :: ofEntries es
termination_by structural es => es

end

/-! ## Numbers -/

/-- How decimals are laid out. -/
structure NumberLayout where
  /-- The most characters that a whole number may have without an exponent. -/
  maxWhole : Nat
  /-- The least power of ten, with the digits taken as a whole number, that is written without an
  exponent. -/
  minExponent : Int
deriving Repr

/-- A whole number has at most twenty characters, and a fraction at most seventeen places. -/
def layout : NumberLayout := ⟨20, -17⟩

/-- Digits with a point behind the first one, unless there is only one. -/
def leadingPoint (digits : String) : String :=
  match digits.toList with
  | first :: second :: rest => String.ofList (first :: '.' :: second :: rest)
  | _ => digits

/-- A positive decimal. -/
def decimalText (d : Decimal) : String :=
  let digits := toString d.digits
  let leading := d.exponent + digits.length - 1
  if 0 ≤ d.exponent then
    if digits.length + d.exponent.toNat ≤ layout.maxWhole then Binary64.positionalDecimal d
    else leadingPoint digits ++ "e" ++ toString leading
  else if layout.minExponent ≤ d.exponent then Binary64.positionalDecimal d
  else leadingPoint digits ++ "e" ++ toString leading

/-- A real. -/
def realText (x : Binary64) : String :=
  if x.isFinite then
    let sign := if x.isNegative then "-" else ""
    if x.isZero then sign ++ "0" else sign ++ decimalText x.shortest
  else "null"

/-! ## Texts -/

/-- A character as it stands between quotation marks. -/
def escapeChar (c : Char) : String :=
  if c = '"' then "\\\""
  else if c = '\\' then "\\\\"
  else if c = '\x08' then "\\b"
  else if c = '\t' then "\\t"
  else if c = '\n' then "\\n"
  else if c = '\x0c' then "\\f"
  else if c = '\r' then "\\r"
  else if c.toNat < 0x20 then "\\u00" ++ Bytes.hexByte (UInt8.ofNat c.toNat)
  else String.singleton c

/-- A text between quotation marks. -/
def quote (text : String) : String :=
  text.toList.foldl (fun out c => out ++ escapeChar c) "\"" ++ "\""

/-! ## Values -/

mutual

/-- A value without white space. -/
def compact : Json → String
  | .bool true => "true"
  | .bool false => "false"
  | .int value => toString value
  | .real value => realText value
  | .string text => quote text
  | .array items => "[" ++ ",".intercalate (compactItems items) ++ "]"
  | .object members => "\x7b" ++ ",".intercalate (compactMembers members) ++ "\x7d"
termination_by structural j => j

/-- Items without white space. -/
def compactItems : List Json → List String
  | [] => []
  | j :: js => compact j :: compactItems js
termination_by structural js => js

/-- Members without white space. -/
def compactMembers : List (String × Json) → List String
  | [] => []
  | (key, j) :: ms => (quote key ++ ":" ++ compact j) :: compactMembers ms
termination_by structural ms => ms

end

/-- Spaces for each collection around a line. -/
def indentWidth : Nat := 2

/-- The space in front of a line. -/
def indent (depth : Nat) : String := "".pushn ' ' (indentWidth * depth)

/-- Members of a collection, each on a line of its own, between two brackets. -/
def block (depth : Nat) (left right : String) (members : List String) : String :=
  if members.isEmpty then left ++ right
  else
    left ++ "\n" ++ ",\n".intercalate (members.map fun m => indent (depth + 1) ++ m) ++ "\n"
      ++ indent depth ++ right

mutual

/-- A value with one member to a line, inside of `depth` collections. -/
def prettyAt (depth : Nat) : Json → String
  | .bool true => "true"
  | .bool false => "false"
  | .int value => toString value
  | .real value => realText value
  | .string text => quote text
  | .array items => block depth "[" "]" (prettyItems (depth + 1) items)
  | .object members => block depth "\x7b" "\x7d" (prettyMembers (depth + 1) members)
termination_by structural j => j

/-- Items, each with its members to a line. -/
def prettyItems (depth : Nat) : List Json → List String
  | [] => []
  | j :: js => prettyAt depth j :: prettyItems depth js
termination_by structural js => js

/-- Members, each with the members of its value to a line. -/
def prettyMembers (depth : Nat) : List (String × Json) → List String
  | [] => []
  | (key, j) :: ms => (quote key ++ ": " ++ prettyAt depth j) :: prettyMembers depth ms
termination_by structural ms => ms

end

/-- A value with one member to a line. -/
def pretty (j : Json) : String := prettyAt 0 j

end Json

end PlistCodec
