import PlistCodec.Binary64.Basic
import PlistCodec.Bytes
import PlistCodec.Date.Basic
import PlistCodec.Dict

/-!
# Property list trees

A `Tree` is a property list held in memory: scalars, references into an object table (`uid`),
arrays, and dictionaries that keep the order of their entries.  An integer has a value and no
width; the formats that store integers in 64 bits use its `bits`.

Two relations compare trees.  Equality of `Tree` tells trees apart by the bits of their reals and
by the order of their entries.  `sameAs` is the coarser comparison of contents, in which reals
compare as numbers and dictionaries as finite maps.
-/

namespace PlistCodec

/-- A property list. -/
inductive Tree where
  /-- A truth value. -/
  | bool (value : Bool)
  /-- An integer. -/
  | int (value : Int)
  /-- A double precision number. -/
  | real (value : Binary64)
  /-- A point in time. -/
  | date (value : Date)
  /-- A text. -/
  | string (text : String)
  /-- A byte string. -/
  | data (bytes : Bytes)
  /-- A reference to a slot of an object table. -/
  | uid (slot : Nat)
  /-- A list of trees. -/
  | array (items : List Tree)
  /-- A dictionary, by its entries in order. -/
  | dict (entries : List (String × Tree))
deriving Repr, Inhabited

namespace Tree

/-! ## Kinds -/

/-- The name of a kind of node, as the reports of this library show it. -/
def kindName : Tree → String
  | .bool _ => "boolean"
  | .int _ => "integer"
  | .real _ => "real"
  | .date _ => "date"
  | .string _ => "string"
  | .data _ => "data"
  | .uid _ => "uid"
  | .array _ => "array"
  | .dict _ => "dictionary"

/-- The value of an integer that is not negative. -/
def unsigned? : Tree → Option Nat
  | .int value => if 0 ≤ value then some value.toNat else none
  | _ => none

/-- The text of a string. -/
def string? : Tree → Option String
  | .string text => some text
  | _ => none

/-- The slot of a reference. -/
def uid? : Tree → Option Nat
  | .uid slot => some slot
  | _ => none

/-- The items of an array. -/
def array? : Tree → Option (List Tree)
  | .array items => some items
  | _ => none

/-- The entries of a dictionary. -/
def dict? : Tree → Option (Dict Tree)
  | .dict entries => some entries
  | _ => none

/-! ## Integers in 64 bits -/

/-- An integer as far as it fits into 64 bits: a negative one in two's complement. -/
def wordOfInt (value : Int) : Nat := (value % (Bytes.values 8 : Int)).toNat

/-- The 64 bits of an integer node. -/
def integerBits? : Tree → Option Nat
  | .int value => some (wordOfInt value)
  | _ => none

/-! ## Comparison of contents -/

mutual

/-- Whether two trees have the same contents: reals compare as numbers, dictionaries as finite
maps, and everything else by its parts. -/
def sameAs : Tree → Tree → Bool
  | .bool a, .bool b => a == b
  | .int a, .int b => a == b
  | .real a, .real b => a.numEq b
  | .date a, .date b => a == b
  | .string a, .string b => a == b
  | .data a, .data b => a == b
  | .uid a, .uid b => a == b
  | .array as, .array bs => sameItems as bs
  | .dict as, .dict bs => as.length == bs.length && sameEntries as bs
  | _, _ => false
termination_by structural t => t

/-- Whether two lists of trees have the same contents item by item. -/
def sameItems : List Tree → List Tree → Bool
  | [], [] => true
  | a :: as, b :: bs => a.sameAs b && sameItems as bs
  | _, _ => false
termination_by structural ts => ts

/-- Whether every entry of a dictionary has its counterpart in another. -/
def sameEntries : List (String × Tree) → Dict Tree → Bool
  | [], _ => true
  | (key, a) :: as, bs =>
    (match bs.get? key with
      | some b => a.sameAs b
      | none => false) && sameEntries as bs
termination_by structural es => es

end

/-! ## Well-formed trees -/

mutual

/-- In no dictionary of the tree does a key occur twice. -/
def WellFormed : Tree → Prop
  | .array items => WellFormedItems items
  | .dict entries => Dict.Distinct entries ∧ WellFormedEntries entries
  | _ => True
termination_by structural t => t

/-- All trees of a list are well-formed. -/
def WellFormedItems : List Tree → Prop
  | [] => True
  | t :: ts => t.WellFormed ∧ WellFormedItems ts
termination_by structural ts => ts

/-- The values of all entries are well-formed. -/
def WellFormedEntries : List (String × Tree) → Prop
  | [] => True
  | (_, t) :: es => t.WellFormed ∧ WellFormedEntries es
termination_by structural es => es

end

end Tree

end PlistCodec
