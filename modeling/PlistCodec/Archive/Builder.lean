import PlistCodec.Archive.Merge

/-!
# Storing values

Values are stored by appending objects to the table and referring to them.  `encodeValue` gives the
node that stands for a value where it is used: the value itself if it is inline, and otherwise a
reference to a new object.  An instance is appended together with the description of its class,
which takes the next slot, and gets its properties afterwards.

Nothing is undone when a call fails; what was appended until then stays in the table.
-/

namespace PlistCodec.Archive

/-! ## Names of properties -/

/-- The property that holds the items of an array or the values of a dictionary. -/
def itemsKey : String := "NS.objects"

/-- The property that holds the keys of a dictionary. -/
def keysKey : String := "NS.keys"

/-- The property that holds the text of a string. -/
def stringKey : String := "NS.string"

/-- The property that holds the seconds of a date. -/
def timeKey : String := "NS.time"

/-- The property that holds the bytes of a data object. -/
def dataKey : String := "NS.data"

/-- The property that holds what an address is relative to. -/
def baseKey : String := "NS.base"

/-- The property that holds the relative part of an address. -/
def relativeKey : String := "NS.relative"

/-! ## Properties of instances -/

/-- Changes the entries of the instance in a slot. -/
def modifyInstance (slot : Nat) (change : Dict Tree → Dict Tree) : Builder Unit := do
  let entries ← fromArchive fun a => a.instanceAt slot
  putObject slot (.dict (change entries))

/-- Makes sure that a property of an instance is an array, an empty one if it was missing. -/
def ensureArray (slot : Nat) (name : String) : Builder Unit := do
  let entries ← fromArchive fun a => a.instanceAt slot
  match entries.get? name with
  | some (.array _) => return
  | some _ => throw (.unexpectedValue name "array")
  | none => modifyInstance slot fun entries => entries.insert name (.array [])

/-- Adds an item to a property that is an array. -/
def pushItem (slot : Nat) (name : String) (item : Tree) : Builder Unit := do
  let entries ← fromArchive fun a => a.instanceAt slot
  match (entries.get? name).bind Tree.array? with
  | some items => modifyInstance slot fun entries => entries.insert name (.array (items ++ [item]))
  | none => throw (.unexpectedValue name "array")

/-! ## Values -/

/-- Stores the value that `encode` yields under a name.  That the slot holds an instance is checked
before anything is appended. -/
def storeProperty (slot : Nat) (name : String) (encode : Builder Tree) : Builder Unit := do
  let _ ← fromArchive fun a => a.instanceAt slot
  let node ← encode
  modifyInstance slot fun entries => entries.insert name node

/-- Appends an instance of a class in one of its forms, without properties. -/
def appendInstance (c : ObjectClass) (form : Mutability) : Builder Nat :=
  appendClass (c.formName form) (c.ancestors form)

/-- Appends a text, unless it is the one in slot 0, and refers to it. -/
def encodeString (text : String) : Builder Tree := do
  if text = nullText then return .uid 0
  return .uid (← appendObject (.string text))

/-- The node that stands for a value, whose objects may nest `levels` deep. -/
def encodeValue : (levels : Nat) → ArchiveValue → Builder Tree
  | 0, _ => throw (.recursionLimit maxDepth)
  | levels + 1, v =>
    match v with
    | .integer value => return .int value
    | .inlineString text => return .string text
    | .inlineTree tree => return tree
    | .data bytes => return .data bytes
    | .integerObject value => return .uid (← appendObject (.int value))
    | .boolean value => return .uid (← appendObject (.bool value))
    | .real value => return .uid (← appendObject (.real value))
    | .string text => encodeString text
    | .nsString form text => do
      let slot ← appendInstance .string form
      storeProperty slot stringKey (encodeValue levels (.string text))
      return .uid slot
    | .nsArray form items => do
      let slot ← appendInstance .array form
      let nodes ← items.mapM (encodeValue levels)
      modifyInstance slot fun entries => entries.insert itemsKey (.array nodes)
      return .uid slot
    | .nsDictionary form entries => do
      let slot ← appendInstance .dictionary form
      let nodes ← entries.mapM fun (key, value) => do
        let keyNode ← encodeValue levels (.string key)
        let valueNode ← encodeValue levels value
        return (keyNode, valueNode)
      modifyInstance slot fun entries =>
        (entries.insert keysKey (.array (nodes.map Prod.fst))).insert itemsKey
          (.array (nodes.map Prod.snd))
      return .uid slot
    | .nsDate seconds => do
      let slot ← appendInstance .date .fixed
      storeProperty slot timeKey (encodeValue levels (.real seconds))
      return .uid slot
    | .nsData form bytes => do
      let slot ← appendInstance .data form
      storeProperty slot dataKey (encodeValue levels (.data bytes))
      return .uid slot
    | .nsUrl base relative => do
      let slot ← appendInstance .url .fixed
      if let some base := base then
        storeProperty slot baseKey (encodeValue levels base)
        if let some relative := relative then
          storeProperty slot relativeKey (encodeValue levels relative)
      return .uid slot
    | .nsKeyedArchive source => mergeArchive source
    | .fromPlist tree => do
      let value ← ofExcept (ArchiveValue.ofTree tree)
      encodeValue levels value

/-! ## Calls -/

/-- Stores a value under a name in the instance in a slot. -/
def setProperty (slot : Nat) (name : String) (v : ArchiveValue) : Builder Unit :=
  storeProperty slot name (encodeValue maxDepth v)

/-- Stores a value as a root object.  It becomes the default one if there is none. -/
def appendRoot (v : ArchiveValue) : Builder Unit := do
  if v.isInline then
    throw (.invalidArgument s!"{v.typeName} values cannot be stored as a root object")
  match ← encodeValue (maxDepth + 1) v with
  | .uid slot =>
    if ((← get).topUid? none).isNone then addTop slot
  | other => throw (.unexpectedValue v.typeName s!"uid, found {other.kindName}")

/-- Stores a value behind the items of the array instance in a slot. -/
def appendItem (slot : Nat) (v : ArchiveValue) : Builder Unit := do
  ensureArray slot itemsKey
  let item ← encodeValue (maxDepth + 1) v
  pushItem slot itemsKey item

/-- Stores a key and a value behind the entries of the dictionary instance in a slot. -/
def addEntry (slot : Nat) (key : String) (v : ArchiveValue) : Builder Unit := do
  ensureArray slot keysKey
  ensureArray slot itemsKey
  let keyNode ← encodeValue (maxDepth + 1) (.string key)
  let valueNode ← encodeValue (maxDepth + 1) v
  pushItem slot keysKey keyNode
  pushItem slot itemsKey valueNode

end PlistCodec.Archive
