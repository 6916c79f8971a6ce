import PlistCodec.Archive.Value

/-!
# Changing an archive

A `Builder` is a computation that changes an archive and may fail; what it changed before it failed
stays changed.  This module holds the changes that all others are made of: appending an object,
overwriting one, appending a class pair, and naming root objects.
-/

namespace PlistCodec.Archive

/-- A computation on an archive that may fail.  A failure leaves the archive as it is by then. -/
abbrev Builder := EStateM Error Archive

/-- The outcome of a reading as a step of a builder. -/
def ofExcept {α : Type} : Except Error α → Builder α
  | .ok a => pure a
  | .error e => throw e

/-- What a reading of the current archive gives. -/
def fromArchive {α : Type} (read : Archive → Except Error α) : Builder α := do
  ofExcept (read (← get))

/-! ## Slots -/

/-- The archive with other objects in its table. -/
def withObjects (a : Archive) (objects : List Tree) : Archive :=
  { a with root := Dict.insert a.root objectsKey (.array objects) }

/-- Appends an object and gives its slot. -/
def appendObject (object : Tree) : Builder Nat := do
  let objects ← fromArchive Archive.objects
  modify fun a =>
    { a.withObjects (objects ++ [object]) with lastUid := a.lastUid + 1 }
  return (← get).lastUid

/-- Overwrites the object in a slot. -/
def putObject (slot : Nat) (object : Tree) : Builder Unit := do
  let objects ← fromArchive Archive.objects
  if slot < objects.length then modify fun a => a.withObjects (objects.set slot object)
  else throw (.uidOutOfRange slot objects.length)

/-- Appends an instance without properties and, in the next slot, the description of its class.
Gives the slot of the instance. -/
def appendClass (name : String) (ancestors : List String) : Builder Nat := do
  if name.isEmpty then throw (.invalidArgument "class name must not be empty")
  let slot ← appendObject (.dict [(classKey, .uid ((← get).lastUid + 2))])
  let _ ← appendObject (.dict
    [(classesKey, .array ((name :: ancestors).map .string)), (classnameKey, .string name)])
  return slot

/-! ## Root objects -/

/-- The entries of `$top`, if it is a dictionary. -/
def top? (a : Archive) : Option (Dict Tree) :=
  (Dict.get? a.root topKey).bind Tree.dict?

/-- The archive with other entries in `$top`. -/
def withTop (a : Archive) (top : Dict Tree) : Archive :=
  { a with root := Dict.insert a.root topKey (.dict top) }

/-- The name of a further root object, when there are `count` of them. -/
def numberedTopKey (count : Nat) : String := "$" ++ toString count

/-- Names the object in a slot as a root object: the first one `$0`, further ones by the number of
those that are there. -/
def addTop (slot : Nat) : Builder Unit := do
  let _ ← fromArchive fun a => a.object slot
  modify fun a =>
    match a.top? with
    | some top => a.withTop (Dict.insert top (numberedTopKey top.length) (.uid slot))
    | none => a.withTop [(defaultTopKey, .uid slot)]

/-- Appends a class pair and names the instance as a root object. -/
def addTopClass (name : String) (ancestors : List String) : Builder Nat := do
  let slot ← appendClass name ancestors
  addTop slot
  return slot

/-- The entries of `$top` with another name for the first one. -/
def renameFirst (name : String) : Dict Tree → Dict Tree
  | [] => []
  | (_, value) :: rest => (name, value) :: rest

/-- Gives the first root object another name, which no other root object may have. -/
def renameTop (name : String) : Builder Unit := do
  match (← get).top? with
  | none => return
  | some top =>
    if (Dict.keys top).tail.contains name then
      throw (.invalidArgument s!"{topKey} already has an entry named {name}")
    modify fun a => a.withTop (renameFirst name top)

end PlistCodec.Archive
