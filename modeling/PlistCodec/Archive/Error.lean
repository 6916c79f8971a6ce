import PlistCodec.Binary64.Decimal
import PlistCodec.Tree.Basic

/-!
# Failures of keyed archives

One constructor for each cause, and the two look-ups in a dictionary that every part of an archive
is reached by.
-/

namespace PlistCodec.Archive

/-- Why an archive could not be read, built or flattened. -/
inductive Error where
  /-- The archiver's name is another one, or is missing. -/
  | unexpectedArchiver (found : Option String)
  /-- The version is another one, or is missing. -/
  | unexpectedVersion (found : Option Nat)
  /-- A key is missing. -/
  | missingKey (key : String)
  /-- The value of a key is not what is expected. -/
  | unexpectedValue (key expected : String)
  /-- The object in a slot is not what is expected. -/
  | unexpectedObject (slot : Nat) (expected : String)
  /-- There is no such slot in a table of `length` objects. -/
  | uidOutOfRange (slot length : Nat)
  /-- Objects of this class have no counterpart outside archives. -/
  | unsupportedClass (name : String)
  /-- The object in a slot has no class name. -/
  | missingClassName (slot : Nat)
  /-- A call was made with an argument that is not allowed. -/
  | invalidArgument (why : String)
  /-- A dictionary object has different numbers of keys and values. -/
  | mismatchedKeys (keys values : Nat)
  /-- Objects are nested more than `depth` deep. -/
  | recursionLimit (depth : Nat)
  /-- No date lies this many seconds after the reference date. -/
  | invalidDate (seconds : Binary64)
  /-- The bytes are no property list. -/
  | unreadable
deriving DecidableEq, Repr

/-- The report of a failure. -/
def Error.message : Error → String
  | .unexpectedArchiver (some name) => s!"Unexpected $archiver value: {name}"
  | .unexpectedArchiver none => "$archiver key not found or invalid"
  | .unexpectedVersion (some version) => s!"Unexpected NSKeyedArchiver version: {version}"
  | .unexpectedVersion none => "$version key not found or invalid"
  | .missingKey key => s!"Missing key: {key}"
  | .unexpectedValue key expected => s!"Invalid data found at {key}, expected {expected}"
  | .unexpectedObject slot expected =>
    s!"Invalid data found at object index {slot}, expected {expected}"
  | .uidOutOfRange slot length =>
    s!"UID {slot} is outside of the objects table of length {length}"
  | .unsupportedClass name => s!"Unhandled class type: {name}"
  | .missingClassName slot => s!"Object {slot} does not reference a valid class"
  | .invalidArgument why => s!"Invalid argument: {why}"
  | .mismatchedKeys keys values =>
    s!"Inconsistent number of keys ({keys}) vs. values ({values}) in dictionary object"
  | .recursionLimit depth => s!"Object graph exceeds the maximum depth of {depth}"
  | .invalidDate seconds => s!"Invalid date value: {seconds.positional}"
  | .unreadable => "Unable to parse plist"

/-- An optional value, or the failure that its absence means. -/
def orFail {α : Type} (e : Error) : Option α → Except Error α
  | some a => .ok a
  | none => .error e

/-- The dictionary under a key. -/
def dictAt (d : Dict Tree) (key : String) : Except Error (Dict Tree) := do
  let value ← orFail (.missingKey key) (d.get? key)
  orFail (.unexpectedValue key "dictionary") value.dict?

/-- The array under a key. -/
def arrayAt (d : Dict Tree) (key : String) : Except Error (List Tree) := do
  let value ← orFail (.missingKey key) (d.get? key)
  orFail (.unexpectedValue key "array") value.array?

end PlistCodec.Archive
