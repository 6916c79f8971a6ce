import PlistCodec.Archive.Table

/-!
# Copying objects from another archive

A node of a source archive means something in another archive once everything that it refers to has
been copied.  The copies are appended in the order in which a walk from the node reaches them.  A
slot is appended, with the string of slot 0 in it, before the copy is walked, and takes the copy
when the walk of it is done.

The walk changes the node as it goes.  When it fails, the part that was walked is left changed, and
so is the archive.
-/

namespace PlistCodec.Archive

/-- What a walk leaves behind. -/
structure Merged (α : Type) where
  /-- What was walked, with references into the target as far as the walk went. -/
  node : α
  /-- Why the walk ended early, if it did. -/
  fault : Option Error
  /-- The target archive. -/
  archive : Archive

/-- Stands in a slot until the copy that belongs there has been walked. -/
def placeholder : Tree := .string nullText

/-- Walks the items of an array until one of the walks fails. -/
def mergeItems (walk : Tree → Archive → Merged Tree) : List Tree → Archive → Merged (List Tree)
  | [], a => ⟨[], none, a⟩
  | t :: ts, a =>
    match walk t a with
    | ⟨node, some e, a⟩ => ⟨node :: ts, some e, a⟩
    | ⟨node, none, a⟩ =>
      match mergeItems walk ts a with
      | ⟨nodes, fault, a⟩ => ⟨node :: nodes, fault, a⟩

/-- Walks the values of a dictionary until one of the walks fails. -/
def mergeEntries (walk : Tree → Archive → Merged Tree) :
    List (String × Tree) → Archive → Merged (List (String × Tree))
  | [], a => ⟨[], none, a⟩
  | (key, t) :: es, a =>
    match walk t a with
    | ⟨node, some e, a⟩ => ⟨(key, node) :: es, some e, a⟩
    | ⟨node, none, a⟩ =>
      match mergeEntries walk es a with
      | ⟨nodes, fault, a⟩ => ⟨(key, node) :: nodes, fault, a⟩

/-- Copies the object in a slot of the source, by a walk of the copy. -/
def mergeSlot (source : Archive) (walk : Tree → Archive → Merged Tree) (slot : Nat)
    (a : Archive) : Merged Tree :=
  match source.object slot with
  | .error e => ⟨.uid slot, some e, a⟩
  | .ok copy =>
    match (appendObject placeholder).run a with
    | .error e a => ⟨.uid slot, some e, a⟩
    | .ok target a =>
      match walk copy a with
      | ⟨_, some e, a⟩ => ⟨.uid target, some e, a⟩
      | ⟨node, none, a⟩ =>
        match (putObject target node).run a with
        | .error e a => ⟨.uid target, some e, a⟩
        | .ok _ a => ⟨.uid target, none, a⟩

/-- Walks a node of the source, which may nest `levels` deep; a reference counts as a level. -/
def mergeNode (source : Archive) : (levels : Nat) → Tree → Archive → Merged Tree
  | 0, t, a => ⟨t, some (.recursionLimit maxDepth), a⟩
  | levels + 1, t, a =>
    match t with
    | .uid slot =>
      if slot = 0 then ⟨.uid 0, none, a⟩
      else mergeSlot source (mergeNode source levels) slot a
    | .array items =>
      match mergeItems (mergeNode source levels) items a with
      | ⟨nodes, fault, a⟩ => ⟨.array nodes, fault, a⟩
    | .dict entries =>
      match mergeEntries (mergeNode source levels) entries a with
      | ⟨nodes, fault, a⟩ => ⟨.dict nodes, fault, a⟩
    | other => ⟨other, none, a⟩

/-- Copies everything that a node of the source refers to. -/
def mergeObject (source : Archive) (node : Tree) (a : Archive) : Merged Tree :=
  mergeNode source (maxDepth + 1) node a

/-- Copies the default root object of the source and refers to the copy.  A source without one
stands for no object. -/
def mergeArchive (source : Archive) : Builder Tree := fun a =>
  match source.topUid? none with
  | none => .ok (.uid 0) a
  | some slot =>
    match mergeObject source (.uid slot) a with
    | ⟨_, some e, a⟩ => .error e a
    | ⟨node, none, a⟩ => .ok node a

end PlistCodec.Archive
