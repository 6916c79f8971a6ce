import PlistCodec.Archive.Builder

/-!
# Calls on an archive

A `Call` is one of the changes that a user of an archive may ask for, and `perform` makes it.  An
archive's history is a list of calls, whether they succeed or not: `after` gives the archive that a
call leaves.
-/

namespace PlistCodec.Archive

/-- A change that a user may ask for. -/
inductive Call where
  /-- Appends an object to the table. -/
  | appendObject (object : Tree)
  /-- Appends a class pair. -/
  | appendClass (name : String) (ancestors : List String)
  /-- Appends a class pair and names the instance as a root object. -/
  | addTopClass (name : String) (ancestors : List String)
  /-- Names the object in a slot as a root object. -/
  | addTop (slot : Nat)
  /-- Gives the first root object another name. -/
  | renameTop (name : String)
  /-- Stores a property of an instance. -/
  | setProperty (slot : Nat) (name : String) (value : ArchiveValue)
  /-- Stores a value as a root object. -/
  | appendRoot (value : ArchiveValue)
  /-- Adds an item to an array instance. -/
  | appendItem (slot : Nat) (value : ArchiveValue)
  /-- Adds an entry to a dictionary instance. -/
  | addEntry (slot : Nat) (key : String) (value : ArchiveValue)
  /-- Copies what a node of another archive refers to. -/
  | merge (source : Archive) (node : Tree)

/-- What a call gives back. -/
inductive Reply where
  /-- Nothing. -/
  | done
  /-- The slot of a new object. -/
  | slot (slot : Nat)
  /-- A node as a walk left it, and why the walk ended early, if it did. -/
  | walked (node : Tree) (fault : Option Error)

/-- Makes a call.  A walk that ends early is no failure of the call: its reply says so. -/
def perform : Call → Builder Reply
  | .appendObject object => return .slot (← Archive.appendObject object)
  | .appendClass name ancestors => return .slot (← Archive.appendClass name ancestors)
  | .addTopClass name ancestors => return .slot (← Archive.addTopClass name ancestors)
  | .addTop slot => do Archive.addTop slot; return .done
  | .renameTop name => do Archive.renameTop name; return .done
  | .setProperty slot name value => do Archive.setProperty slot name value; return .done
  | .appendRoot value => do Archive.appendRoot value; return .done
  | .appendItem slot value => do Archive.appendItem slot value; return .done
  | .addEntry slot key value => do Archive.addEntry slot key value; return .done
  | .merge source node => fun a =>
    let merged := mergeObject source node a
    .ok (.walked merged.node merged.fault) merged.archive

/-- The archive that a call leaves, whether it succeeds or not. -/
def after (a : Archive) (call : Call) : Archive :=
  match (perform call).run a with
  | .ok _ a => a
  | .error _ a => a

end PlistCodec.Archive
