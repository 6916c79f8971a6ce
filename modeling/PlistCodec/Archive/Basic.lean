import PlistCodec.Archive.Error

/-!
# Keyed archives

A keyed archive is a property list that stores a graph of objects flatly:

* `$objects` is the table of all objects; slot 0 holds the string `$null`;
* objects refer to each other by the numbers of their slots;
* an instance of a class is a dictionary, whose `$class` entry refers to a description of the class
  with its name in `$classname` and its name and ancestors in `$classes`;
* `$top` gives names to the root objects.

This module holds the type, the check that a property list is an archive, and everything that reads
an archive without following its graph.
-/

namespace PlistCodec

/-- A keyed archive: its root dictionary, and the number of the last slot of its table. -/
structure Archive where
  /-- The entries of the property list. -/
  root : List (String × Tree)
  /-- The last slot of the object table; the next object goes behind it. -/
  lastUid : Nat
deriving Repr

namespace Archive

/-! ## Names in the format -/

/-- The archiver that every archive names. -/
def archiverName : String := "NSKeyedArchiver"

/-- The version that every archive has. -/
def archiverVersion : Nat := 100000

/-- The key of the archiver's name. -/
def archiverKey : String := "$archiver"

/-- The key of the version. -/
def versionKey : String := "$version"

/-- The key of the object table. -/
def objectsKey : String := "$objects"

/-- The key of the names of the root objects. -/
def topKey : String := "$top"

/-- The first name for a root object. -/
def defaultTopKey : String := "$0"

/-- The other usual name for the first root object. -/
def rootTopKey : String := "root"

/-- The string in slot 0, which stands for no object. -/
def nullText : String := "$null"

/-- The entry of an instance that refers to its class. -/
def classKey : String := "$class"

/-- The entry of a class description that holds the names of the class and its ancestors. -/
def classesKey : String := "$classes"

/-- The entry of a class description that holds the name of the class. -/
def classnameKey : String := "$classname"

/-- Objects are built, copied and flattened to this depth; the outermost one has depth 0. -/
def maxDepth : Nat := 100

/-! ## Archives and property lists -/

/-- The archive whose table holds slot 0 alone. -/
def new : Archive where
  root :=
    [(versionKey, .int archiverVersion),
     (objectsKey, .array [.string nullText]),
     (archiverKey, .string archiverName)]
  lastUid := 0

/-- The archive as a property list. -/
def toTree (a : Archive) : Tree := .dict a.root

/-- The place of the default root in the reports about it. -/
def defaultTopPath : String := topKey ++ "." ++ defaultTopKey

/-- The entry of the default root object among the named roots. -/
def defaultTop? (top : Dict Tree) : Option Tree :=
  (top.get? defaultTopKey).or (top.get? rootTopKey)

/-- Checks that the archiver is the one that this library knows. -/
def checkArchiver (root : Dict Tree) : Except Error Unit :=
  let found := (root.get? archiverKey).bind Tree.string?
  if found = some archiverName then .ok () else .error (.unexpectedArchiver found)

/-- Checks that the version is the one that this library knows. -/
def checkVersion (root : Dict Tree) : Except Error Unit :=
  let found := (root.get? versionKey).bind Tree.unsigned?
  if found = some archiverVersion then .ok () else .error (.unexpectedVersion found)

/-- The slot of the default root object. -/
def findDefaultRoot (root : Dict Tree) : Except Error Nat := do
  let top ← dictAt root topKey
  let entry ← orFail (.missingKey defaultTopPath) (defaultTop? top)
  orFail (.unexpectedValue defaultTopPath "uid") entry.uid?

/-- The object table, which may not be empty. -/
def findObjects (root : Dict Tree) : Except Error (List Tree) := do
  let objects ← arrayAt root objectsKey
  if objects.isEmpty then .error (.unexpectedValue objectsKey "non-empty array") else .ok objects

/-- Reads a property list as an archive.  Archiver and version have to be the known ones, and the
default root object has to be in the table. -/
def ofTree (t : Tree) : Except Error Archive := do
  let root ← orFail (.unexpectedValue "root" "dictionary") t.dict?
  checkArchiver root
  checkVersion root
  let slot ← findDefaultRoot root
  let objects ← findObjects root
  if slot < objects.length then .ok ⟨root, objects.length - 1⟩
  else .error (.uidOutOfRange slot objects.length)

/-! ## Reading slots -/

/-- The object table. -/
def objects (a : Archive) : Except Error (List Tree) := arrayAt a.root objectsKey

/-- The object in a slot. -/
def object (a : Archive) (slot : Nat) : Except Error Tree := do
  let objects ← a.objects
  orFail (.uidOutOfRange slot objects.length) objects[slot]?

/-- The entries of the instance in a slot. -/
def instanceAt (a : Archive) (slot : Nat) : Except Error (Dict Tree) := do
  let object ← a.object slot
  orFail (.unexpectedObject slot "dictionary") object.dict?

/-- The slot of a root object: of the one with a given name, or of the default one. -/
def topUid? (a : Archive) (name : Option String) : Option Nat := do
  let top ← (← Dict.get? a.root topKey).dict?
  let entry ←
    match name with
    | some name => top.get? name
    | none => defaultTop? top
  entry.uid?

/-- The class name of the instance in a slot.  A reference to slot 0 is no class. -/
def classname? (a : Archive) (slot : Nat) : Option String := do
  let entries ← (a.instanceAt slot).toOption
  let description ← (← entries.get? classKey).uid?
  if description = 0 then none
  else
    let description ← (a.instanceAt description).toOption
    (← description.get? classnameKey).string?

/-! ## Reading properties -/

/-- A property of the instance in a slot, as it is stored. -/
def property? (a : Archive) (slot : Nat) (name : String) : Option Tree := do
  (← (a.instanceAt slot).toOption).get? name

/-- A property that has to be there. -/
def property (a : Archive) (slot : Nat) (name : String) : Except Error Tree :=
  orFail (.missingKey name) (a.property? slot name)

/-- An integer property that is not negative, stored in its place or in a slot of its own. -/
def natProperty (a : Archive) (slot : Nat) (name : String) : Except Error Nat := do
  let stored ← a.property slot name
  let value ←
    match stored.uid? with
    | some target => a.object target
    | none => .ok stored
  orFail (.unexpectedValue name "integer") value.unsigned?

/-- An integer property that is not negative and fits into 32 bits with a sign. -/
def int32Property (a : Archive) (slot : Nat) (name : String) : Except Error Nat := do
  let value ← a.natProperty slot name
  if value < Bytes.signLimit 4 then .ok value else .error (.unexpectedValue name "32-bit integer")

/-- A string property, which has a slot of its own. -/
def stringProperty (a : Archive) (slot : Nat) (name : String) : Except Error String := do
  let stored ← a.property slot name
  let target ← orFail (.unexpectedValue name "uid") stored.uid?
  let value ← a.object target
  orFail (.unexpectedObject target "string") value.string?

end Archive

end PlistCodec
