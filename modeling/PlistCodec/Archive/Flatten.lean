import PlistCodec.Archive.Class
import PlistCodec.Archive.Builder
import PlistCodec.Date.ReferenceSeconds

/-!
# Flattening

`flatten` follows the references of an archive from its default root object and gives the ordinary
property list that the objects stand for.  Primitive objects and inline values stand for
themselves, and an instance for what its class makes of its properties:

| class | property list |
|---|---|
| dictionaries | the values of `NS.objects` under the keys of `NS.keys` |
| arrays | the items of `NS.objects` |
| strings, data | the text of `NS.string`, the bytes of `NS.data` |
| dates | the date that lies `NS.time` seconds after the reference date |
-/

namespace PlistCodec.Archive

/-- The failure of a property with a value of the wrong kind. -/
def wrongKind (key expected : String) (found : Tree) : Error :=
  .unexpectedValue key s!"{expected}, found {found.kindName}"

/-- A property that holds a list of nodes. -/
def listProperty (a : Archive) (slot : Nat) (name : String) : Except Error (List Tree) := do
  let value ← a.property slot name
  orFail (.unexpectedValue name "array") value.array?

/-- What a node stands for: an inline value for itself, and a reference for what `follow` finds. -/
def resolve (follow : Nat → Except Error Tree) : Tree → Except Error Tree
  | .uid slot => follow slot
  | inline => .ok inline

/-- Puts keys and values together, each resolved in turn. -/
def resolveEntries (follow : Nat → Except Error Tree) (entries : List (Tree × Tree)) :
    Except Error (Dict Tree) :=
  entries.foldlM (fun d (keyNode, valueNode) => do
    let resolved ← resolve follow keyNode
    let key ← orFail (wrongKind keysKey "string" resolved) resolved.string?
    let value ← resolve follow valueNode
    return Dict.insert d key value) []

/-- What an instance of a class stands for. -/
def flattenInstance (a : Archive) (follow : Nat → Except Error Tree) (slot : Nat) :
    ObjectClass → Except Error Tree
  | .dictionary => do
    let keys ← a.listProperty slot keysKey
    let values ← a.listProperty slot itemsKey
    if keys.length = values.length then
      return .dict (← resolveEntries follow (keys.zip values))
    else throw (.mismatchedKeys keys.length values.length)
  | .array => do
    let items ← a.listProperty slot itemsKey
    return .array (← items.mapM (resolve follow))
  | .string => do
    let value ← resolve follow (← a.property slot stringKey)
    match value with
    | .string text => return .string text
    | other => throw (wrongKind stringKey "string" other)
  | .data => do
    let value ← resolve follow (← a.property slot dataKey)
    match value with
    | .data bytes => return .data bytes
    | other => throw (wrongKind dataKey "data" other)
  | .date => do
    let value ← resolve follow (← a.property slot timeKey)
    match value with
    | .real seconds =>
      match Date.ofReferenceSeconds? seconds with
      | some date => return .date date
      | none => throw (.invalidDate seconds)
    | other => throw (wrongKind timeKey "real" other)
  | .url => throw (.unsupportedClass ObjectClass.url.name)

/-- What the object in a slot stands for, if objects may nest `levels` deep. -/
def flattenWithin (a : Archive) : (levels : Nat) → (slot : Nat) → Except Error Tree
  | 0, _ => .error (.recursionLimit maxDepth)
  | levels + 1, slot => do
    let object ← a.object slot
    match object with
    | .bool _ | .int _ | .real _ | .string _ | .data _ => return object
    | .dict _ =>
      let name ← orFail (.missingClassName slot) (a.classname? slot)
      let c ← orFail (.unsupportedClass name) (ObjectClass.ofName? name)
      a.flattenInstance (flattenWithin a levels) slot c
    | other => throw (.unexpectedObject slot s!"object, found {other.kindName}")

/-- What the object in a slot stands for. -/
def flattenObject (a : Archive) (slot : Nat) : Except Error Tree :=
  a.flattenWithin (maxDepth + 1) slot

/-- What the default root object stands for. -/
def flatten (a : Archive) : Except Error Tree := do
  let slot ← orFail (.missingKey defaultTopPath) (a.topUid? none)
  a.flattenObject slot

end PlistCodec.Archive
