import PlistCodec.Archive.Basic
import PlistCodec.Archive.Class

/-!
# Values that can be archived

An `ArchiveValue` says both what is to be stored and how.  Four kinds are stored *inline*, in the
place where they are used; all others go into slots of the object table and are referred to.
-/

namespace PlistCodec

open Archive (Mutability ObjectClass)

/-- A value to be stored in an archive. -/
inductive ArchiveValue where
  /-- An integer, inline. -/
  | integer (value : Nat)
  /-- An integer in a slot of its own. -/
  | integerObject (value : Nat)
  /-- A truth value in a slot of its own. -/
  | boolean (value : Bool)
  /-- A text, inline. -/
  | inlineString (text : String)
  /-- A text in a slot of its own; the text of slot 0 refers to slot 0. -/
  | string (text : String)
  /-- A real in a slot of its own. -/
  | real (value : Binary64)
  /-- A property list, inline. -/
  | inlineTree (tree : Tree)
  /-- A byte string, inline. -/
  | data (bytes : Bytes)
  /-- A string object. -/
  | nsString (form : Mutability) (text : String)
  /-- An array object. -/
  | nsArray (form : Mutability) (items : List ArchiveValue)
  /-- A dictionary object, by its keys and values in order. -/
  | nsDictionary (form : Mutability) (entries : List (String × ArchiveValue))
  /-- A date object, by its seconds from the reference date. -/
  | nsDate (seconds : Binary64)
  /-- A data object. -/
  | nsData (form : Mutability) (bytes : Bytes)
  /-- An address.  The relative part is stored only behind a base. -/
  | nsUrl (base relative : Option ArchiveValue)
  /-- The default root object of another archive and all that it refers to. -/
  | nsKeyedArchive (source : Archive)
  /-- A property list, as objects of the classes that fit it. -/
  | fromPlist (tree : Tree)

namespace ArchiveValue

/-- The class and the form of the object that a value becomes. -/
def objectClass? : ArchiveValue → Option (ObjectClass × Mutability)
  | .nsString form _ => some (.string, form)
  | .nsArray form _ => some (.array, form)
  | .nsDictionary form _ => some (.dictionary, form)
  | .nsDate _ => some (.date, .fixed)
  | .nsData form _ => some (.data, form)
  | .nsUrl _ _ => some (.url, .fixed)
  | _ => none

/-- The name of a kind of value, as the reports of this library show it. -/
def typeName : ArchiveValue → String
  | .integer _ => "integer"
  | .integerObject _ => "integer reference"
  | .boolean _ => "boolean"
  | .inlineString _ => "inline string"
  | .string _ => "string"
  | .real _ => "real"
  | .inlineTree _ => "array"
  | .data _ => "data"
  | .nsKeyedArchive _ => "NSKeyedArchive"
  | .fromPlist _ => "plist"
  | .nsString form _ => ObjectClass.string.formName form
  | .nsArray form _ => ObjectClass.array.formName form
  | .nsDictionary form _ => ObjectClass.dictionary.formName form
  | .nsDate _ => ObjectClass.date.name
  | .nsData form _ => ObjectClass.data.formName form
  | .nsUrl _ _ => ObjectClass.url.name

/-- Whether a value is stored in the place where it is used. -/
def isInline : ArchiveValue → Bool
  | .integer _ => true
  | .inlineString _ => true
  | .inlineTree _ => true
  | .data _ => true
  | _ => false

/-- The value of a plain entry of a dictionary: a truth value, an integer or a string. -/
def ofPlainTree? : Tree → Option ArchiveValue
  | .bool value => some (.boolean value)
  | .int value => some (.integer (Tree.wordOfInt value))
  | .string text => some (.string text)
  | _ => none

/-- The objects that store a property list: strings and arrays in their changeable forms, and
dictionaries with their plain entries alone. -/
def ofTree : Tree → Except Archive.Error ArchiveValue
  | .string text => .ok (.nsString .mutable text)
  | .array items => .ok (.nsArray .mutable (items.map .fromPlist))
  | .dict entries =>
    .ok (.nsDictionary .fixed
      (entries.filterMap fun (key, item) => (ofPlainTree? item).map fun value => (key, value)))
  | other =>
    .error (.unexpectedValue "plist" s!"string, array, or dictionary, found {other.kindName}")

end ArchiveValue

end PlistCodec
