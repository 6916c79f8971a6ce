import PlistCodec.Base64
import PlistCodec.Binary64.Numeral
import PlistCodec.Date.Rfc3339
import PlistCodec.Text.Blank
import PlistCodec.Tree.Basic
import PlistCodec.XmlPlist.Token

/-!
# Reading XML property lists

The tokens of a document are taken one after the other by a machine, whose `State` holds the names
of the open elements, the collections under construction, and the text of the scalar element that is
open, if one is.  A token that does not fit makes the document unreadable, and so does an end of the
document in a collection, in a scalar element or without a value.  The elements around the value and
those of truth values, which are known from their start tags, need no end tag at the end of the
document.
-/

namespace PlistCodec.XmlPlist

/-! ## Elements -/

/-- Elements that hold a text and no elements. -/
inductive Scalar where
  /-- A text, in `string` or `key`. -/
  | string
  /-- A byte string in base64. -/
  | data
  /-- A date. -/
  | date
  /-- An integer. -/
  | integer
  /-- A real. -/
  | real
deriving DecidableEq, Repr

/-- What an element of a property list is. -/
inductive Element where
  /-- The outermost element, which holds the property list. -/
  | plist
  /-- An array. -/
  | array
  /-- A dictionary. -/
  | dict
  /-- A truth value. -/
  | bool (value : Bool)
  /-- An element with a text. -/
  | scalar (kind : Scalar)
deriving DecidableEq, Repr

/-- The part of a name behind its namespace. -/
def localName (name : Bytes) : Bytes :=
  match name.dropWhile (· != ascii ':') with
  | [] => name
  | _ :: rest => rest

/-- The elements by their names. -/
def elements : List (String × Element) :=
  [("plist", .plist), ("array", .array), ("dict", .dict), ("key", .scalar .string),
   ("string", .scalar .string), ("data", .scalar .data), ("date", .scalar .date),
   ("integer", .scalar .integer), ("real", .scalar .real), ("true", .bool true),
   ("false", .bool false)]

/-- The element of a name. -/
def Element.ofName? (name : Bytes) : Option Element :=
  (elements.find? fun (word, _) => Bytes.ofString word = localName name).map Prod.snd

/-! ## Scalars -/

/-- The value of a hexadecimal digit. -/
def hexDigit? (c : Char) : Option Nat :=
  if '0' ≤ c && c ≤ '9' then some (c.toNat - '0'.toNat)
  else if 'a' ≤ c && c ≤ 'f' then some (c.toNat - 'a'.toNat + 10)
  else if 'A' ≤ c && c ≤ 'F' then some (c.toNat - 'A'.toNat + 10)
  else none

/-- The value of a decimal digit. -/
def decimalDigit? (c : Char) : Option Nat := (hexDigit? c).filter (· < 10)

/-- The number that one or more digits of a base spell. -/
def digits? (base : Nat) (digit? : Char → Option Nat) (cs : List Char) : Option Nat :=
  if cs.isEmpty then none
  else cs.foldlM (fun n c => (digit? c).map fun d => base * n + d) 0

/-- What follows the marks `0x` at the beginning of a text. -/
def dropHexMarks : List Char → List Char
  | '0' :: 'x' :: cs => dropHexMarks cs
  | cs => cs

/-- An integer of at most 64 bits: decimal with an optional sign, or hexadecimal behind one or more
`0x` and an optional plus sign. -/
def integer? (text : String) : Option Int :=
  match text.toList with
  | '0' :: 'x' :: cs =>
    let cs := dropHexMarks cs
    let cs := if cs.head? = some '+' then cs.tail else cs
    (digits? 16 hexDigit? cs).bind fun n => if n < Bytes.values 8 then some (n : Int) else none
  | '-' :: cs =>
    (digits? 10 decimalDigit? cs).bind fun n =>
      if n ≤ Bytes.signLimit 8 then some (-(n : Int)) else none
  | cs =>
    let cs := if cs.head? = some '+' then cs.tail else cs
    (digits? 10 decimalDigit? cs).bind fun n => if n < Bytes.values 8 then some (n : Int) else none

/-- The value of an element with a text. -/
def Scalar.value? (text : String) : Scalar → Option Tree
  | .string => some (.string text)
  | .data => (Base64.decode? (text.toList.filter fun c => !isAsciiBlank c)).map .data
  | .date => (Date.ofText? text).map .date
  | .integer => (integer? text).map .int
  | .real => (Binary64.ofNumeral? text).map .real

/-! ## References -/

/-- The references that stand for a character of markup. -/
def namedReferences : List (String × String) :=
  [("lt", "<"), ("gt", ">"), ("amp", "&"), ("quot", "\""), ("apos", "'")]

/-- The character of a code point that a reference may name. -/
def charOfCode? (n : Nat) : Option String :=
  if n = 0 then none
  else if h : n.isValidChar then some (String.singleton (Char.ofNatAux n h))
  else none

/-- The text of a reference.  One that is not known stands for nothing; a number has to be that of a
character. -/
def referenceText? (name : Bytes) : Option String := do
  let text ← Utf8.decode? name
  match text.toList with
  | '#' :: 'x' :: cs => charOfCode? (← digits? 16 hexDigit? cs)
  | '#' :: cs => charOfCode? (← digits? 10 decimalDigit? cs)
  | _ => some (((namedReferences.find? (·.1 = text)).map Prod.snd).getD "")

/-! ## The machine -/

/-- A collection under construction. -/
inductive Frame where
  /-- An array, with its items in reverse. -/
  | array (items : List Tree)
  /-- A dictionary, with the key that waits for its value. -/
  | dict (entries : Dict Tree) (key : Option String)

/-- What is known of the property list in front of a token. -/
structure State where
  /-- The names of the open elements, the innermost one first. -/
  opened : List Bytes
  /-- The open collections, the innermost one first. -/
  frames : List Frame
  /-- The open scalar element and its text. -/
  scalar : Option (Scalar × String)
  /-- The outermost value, once it is complete. -/
  root : Option Tree

namespace State

/-- The state at the start of a document. -/
def start : State := ⟨[], [], none, none⟩

/-- Puts a value where it belongs: it becomes an item, a key, the value of the waiting key, or the
outermost value. -/
def put (s : State) (value : Tree) : Option State :=
  match s.frames with
  | [] => if s.root.isSome then none else some { s with root := some value }
  | .array items :: frames => some { s with frames := .array (value :: items) :: frames }
  | .dict entries none :: frames =>
    value.string?.map fun key => { s with frames := .dict entries (some key) :: frames }
  | .dict entries (some key) :: frames =>
    some { s with frames := .dict (Dict.insert entries key value) none :: frames }

/-- Completes the innermost collection. -/
def closeFrame (s : State) : Option State :=
  match s.frames with
  | .array items :: frames => { s with frames := frames }.put (.array items.reverse)
  | .dict entries none :: frames => { s with frames := frames }.put (.dict entries)
  | _ => none

/-- Opens an element. -/
def openElement (s : State) (name : Bytes) : Option State :=
  if s.scalar.isSome then none
  else do
    let s := { s with opened := name :: s.opened }
    match ← Element.ofName? name with
    | .plist => some s
    | .array => some { s with frames := .array [] :: s.frames }
    | .dict => some { s with frames := .dict [] none :: s.frames }
    | .bool value => s.put (.bool value)
    | .scalar kind => some { s with scalar := some (kind, "") }

/-- Closes the innermost element, which has to have the given name. -/
def closeElement (s : State) (name : Bytes) : Option State :=
  match s.opened with
  | [] => none
  | top :: opened =>
    if top = name then
      let s := { s with opened := opened }
      match s.scalar with
      | some (kind, text) => (kind.value? text).bind { s with scalar := none }.put
      | none =>
        match Element.ofName? name with
        | some .array => s.closeFrame
        | some .dict => s.closeFrame
        | _ => some s
    else none

/-- Adds text to the open scalar element; elsewhere only white space may stand. -/
def addText (s : State) (text : String) : Option State :=
  match s.scalar with
  | some (kind, read) => some { s with scalar := some (kind, read ++ text) }
  | none => if text.toList.all isBlank then some s else none

/-- Adds the text of a reference, which may stand wherever that text may.  A reference that stands
for nothing may only stand in a scalar element. -/
def addReference (s : State) (name : Bytes) : Option State :=
  (referenceText? name).bind fun text =>
    if s.scalar.isNone && text.isEmpty then none else s.addText text

/-- Takes one token. -/
def step (s : State) : Token → Option State
  | .start name => s.openElement name
  | .stop name => s.closeElement name
  | .empty name => (s.openElement name).bind fun s => s.closeElement name
  | .text bytes => (Utf8.decode? bytes).bind s.addText
  | .reference name => s.addReference name
  | .aside => some s

/-- The property list at the end of a document, where no collection and no scalar element may be
open. -/
def result? (s : State) : Option Tree :=
  if s.frames.isEmpty && s.scalar.isNone then s.root else none

end State

/-- The property list of a document, all of which has to be UTF-8. -/
def read? (document : Bytes) : Option Tree := do
  let _ ← Utf8.decode? document
  let tokens ← tokens? document
  (← tokens.foldlM State.step State.start).result?

end PlistCodec.XmlPlist
