import PlistCodec.Tree.Basic

/-!
# References in XML property lists

XML property lists have no references.  They stand in them as *markers*: dictionaries with the
single key `CF$UID`, whose value is the slot.  `markUids` replaces every reference of a tree by its
marker, and `unmarkUids` every marker by its reference.
-/

namespace PlistCodec

namespace Tree

/-- The only key of a marker. -/
def uidKey : String := "CF$UID"

/-- The marker of a reference. -/
def uidMarker (slot : Nat) : Tree := .dict [(uidKey, .int slot)]

mutual

/-- The tree with a marker in place of every reference. -/
def markUids : Tree → Tree
  | .uid slot => uidMarker slot
  | .array items => .array (markItems items)
  | .dict entries => .dict (markEntries entries)
  | other => other
termination_by structural t => t

/-- A list of trees with markers in place of references. -/
def markItems : List Tree → List Tree
  | [] => []
  | t :: ts => t.markUids :: markItems ts
termination_by structural ts => ts

/-- Entries with markers in place of references. -/
def markEntries : List (String × Tree) → List (String × Tree)
  | [] => []
  | (key, t) :: es => (key, t.markUids) :: markEntries es
termination_by structural es => es

end

/-- The slot that a dictionary marks. -/
def markedSlot? : Dict Tree → Option Nat
  | [(key, value)] => if key = uidKey then value.unsigned? else none
  | _ => none

mutual

/-- The tree with a reference in place of every marker. -/
def unmarkUids : Tree → Tree
  | .array items => .array (unmarkItems items)
  | .dict entries =>
    match markedSlot? entries with
    | some slot => .uid slot
    | none => .dict (unmarkEntries entries)
  | other => other
termination_by structural t => t

/-- A list of trees with references in place of markers. -/
def unmarkItems : List Tree → List Tree
  | [] => []
  | t :: ts => t.unmarkUids :: unmarkItems ts
termination_by structural ts => ts

/-- Entries with references in place of markers. -/
def unmarkEntries : List (String × Tree) → List (String × Tree)
  | [] => []
  | (key, t) :: es => (key, t.unmarkUids) :: unmarkEntries es
termination_by structural es => es

end

end Tree

end PlistCodec
