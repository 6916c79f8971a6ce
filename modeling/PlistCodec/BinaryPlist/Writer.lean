import PlistCodec.BinaryPlist.Reader

/-!
# Writing binary property lists

Scalars that are equal are written once and shared; collections are never shared.  The outermost
object has number 0.  When a walk of the tree reaches a collection, those of its members that have
no number yet get the next ones, all keys of a dictionary before its values; then the collection is
written, and then its members.  So numbers follow the first reference to an object, and positions
the order of writing.
-/

namespace PlistCodec.BinaryPlist

/-- A scalar, with the reals told apart by their bits. -/
inductive SharedScalar where
  /-- A truth value. -/
  | bool (value : Bool)
  /-- An integer. -/
  | int (value : Int)
  /-- A real. -/
  | real (value : Binary64)
  /-- A date. -/
  | date (value : Date)
  /-- A text. -/
  | string (text : String)
  /-- A byte string. -/
  | data (bytes : Bytes)
  /-- A reference into an object table of the property list's own. -/
  | uid (slot : Nat)
deriving DecidableEq

/-- A node as a scalar. -/
def SharedScalar.ofTree? : Tree → Option SharedScalar
  | .bool value => some (.bool value)
  | .int value => some (.int value)
  | .real value => some (.real value)
  | .date value => some (.date value)
  | .string text => some (.string text)
  | .data bytes => some (.data bytes)
  | .uid slot => some (.uid slot)
  | .array _ => none
  | .dict _ => none

/-! ## Bytes of objects -/

/-- The fewest bytes, of those that a number may have, that hold `n`. -/
def widthFor (n : Nat) : Nat :=
  if n < Bytes.values 1 then 1
  else if n < Bytes.values 2 then 2
  else if n < Bytes.values 4 then 4
  else 8

/-- The place of a width among the possible ones: its logarithm. -/
def widthIndex (width : Nat) : Nat := width.log2

/-- The token of an object that has a length. -/
def lengthToken (high length : Nat) : Bytes :=
  if length < 0xF then [UInt8.ofNat (high * 16 + length)]
  else
    let width := widthFor length
    UInt8.ofNat (high * 16 + 0xF) :: UInt8.ofNat (0x10 + widthIndex width)
      :: Bytes.bigEndian width length

/-- The bytes of an integer. -/
def integerBytes (value : Int) : Bytes :=
  if value < 0 then 0x13 :: Bytes.bigEndian 8 (Tree.wordOfInt value)
  else
    let n := value.toNat
    if n < Bytes.signLimit 8 then
      let width := widthFor n
      UInt8.ofNat (0x10 + widthIndex width) :: Bytes.bigEndian width n
    else 0x14 :: Bytes.bigEndian 16 n

/-- The bytes of a text: ASCII if it is, and UTF-16 otherwise. -/
def textBytes (text : String) : Bytes :=
  if text.toList.all fun c => c.toNat < 0x80 then
    let bytes := Bytes.ofString text
    lengthToken 0x5 bytes.length ++ bytes
  else
    let units := Utf16.encode text
    lengthToken 0x6 units.length ++ units.flatMap (Bytes.bigEndian 2)

/-- The bytes of a scalar. -/
def SharedScalar.encode : SharedScalar → Bytes
  | .bool false => [0x08]
  | .bool true => [0x09]
  | .int value => integerBytes value
  | .real value => 0x23 :: Bytes.bigEndian 8 value.bits.toNat
  | .date value => 0x33 :: Bytes.bigEndian 8 (secondsOfDate value).bits.toNat
  | .string text => textBytes text
  | .data bytes => lengthToken 0x4 bytes.length ++ bytes
  | .uid slot =>
    let width := widthFor slot
    UInt8.ofNat (0x80 + (width - 1)) :: Bytes.bigEndian width slot

/-! ## Counting objects -/

mutual

/-- The scalars of a tree, keys included, added to those `seen`; and the number of its
collections. -/
def census (seen : List SharedScalar × Nat) : Tree → List SharedScalar × Nat
  | .array items => censusItems (seen.1, seen.2 + 1) items
  | .dict entries => censusEntries (seen.1, seen.2 + 1) entries
  | .bool value => (seen.1.insert (.bool value), seen.2)
  | .int value => (seen.1.insert (.int value), seen.2)
  | .real value => (seen.1.insert (.real value), seen.2)
  | .date value => (seen.1.insert (.date value), seen.2)
  | .string text => (seen.1.insert (.string text), seen.2)
  | .data bytes => (seen.1.insert (.data bytes), seen.2)
  | .uid slot => (seen.1.insert (.uid slot), seen.2)
termination_by structural t => t

/-- The census of the items of an array. -/
def censusItems (seen : List SharedScalar × Nat) : List Tree → List SharedScalar × Nat
  | [] => seen
  | t :: ts => censusItems (census seen t) ts
termination_by structural ts => ts

/-- The census of the entries of a dictionary. -/
def censusEntries (seen : List SharedScalar × Nat) :
    List (String × Tree) → List SharedScalar × Nat
  | [] => seen
  | (key, t) :: es => censusEntries (census (seen.1.insert (.string key), seen.2) t) es
termination_by structural es => es

end

/-- The number of objects of a tree. -/
def objectCount (t : Tree) : Nat :=
  let (scalars, collections) := census ([], 0) t
  scalars.length + collections

/-! ## Placing objects -/

/-- What has been numbered and written so far. -/
structure Placement where
  /-- The number of each scalar that has one. -/
  numbers : List (SharedScalar × Nat)
  /-- The next number. -/
  next : Nat
  /-- The number and the offset of each object that is written, the last one first. -/
  offsets : List (Nat × Nat)
  /-- The written pieces, the last one first. -/
  pieces : List Bytes
  /-- The offset of the next object. -/
  position : Nat

namespace Placement

/-- The state in which only the outermost object has a number. -/
def start : Placement := ⟨[], 1, [], [magic], magic.length⟩

/-- The number of a scalar, a new one if it has none. -/
def numberScalar (p : Placement) (s : SharedScalar) : Nat × Placement :=
  match p.numbers.lookup s with
  | some n => (n, p)
  | none => (p.next, { p with numbers := (s, p.next) :: p.numbers, next := p.next + 1 })

/-- The number of a member, a new one if it is a collection or has none. -/
def numberMember (p : Placement) (t : Tree) : Nat × Placement :=
  match SharedScalar.ofTree? t with
  | some s => p.numberScalar s
  | none => (p.next, { p with next := p.next + 1 })

/-- The numbers of members, in order. -/
def numberMembers (p : Placement) : List Tree → List Nat × Placement
  | [] => ([], p)
  | t :: ts =>
    let (n, p) := p.numberMember t
    let (ns, p) := p.numberMembers ts
    (n :: ns, p)

/-- Writes an object. -/
def emit (p : Placement) (number : Nat) (bytes : Bytes) : Placement :=
  { p with
    offsets := (number, p.position) :: p.offsets
    pieces := bytes :: p.pieces
    position := p.position + bytes.length }

/-- Writes a scalar, unless it is written already. -/
def emitScalar (p : Placement) (number : Nat) (s : SharedScalar) : Placement :=
  if (p.offsets.lookup number).isSome then p else p.emit number s.encode

/-- Writes keys, each unless it is written already. -/
def emitKeys (p : Placement) (keys : List (String × Nat)) : Placement :=
  keys.foldl (fun p (key, number) => p.emitScalar number (.string key)) p

end Placement

/-- The references of a collection. -/
def references (width : Nat) (numbers : List Nat) : Bytes :=
  numbers.flatMap (Bytes.bigEndian width)

mutual

/-- Writes the object of a tree, and the objects that it refers to. -/
def place (width : Nat) : Tree → (number : Nat) → Placement → Placement
  | .array items, number, p =>
    let (numbers, p) := p.numberMembers items
    let p := p.emit number (lengthToken 0xA items.length ++ references width numbers)
    placeItems width items numbers p
  | .dict entries, number, p =>
    let keys := entries.map Prod.fst
    let (keyNumbers, p) := p.numberMembers (keys.map .string)
    let (valueNumbers, p) := p.numberMembers (entries.map Prod.snd)
    let p := p.emit number
      (lengthToken 0xD entries.length ++ references width (keyNumbers ++ valueNumbers))
    let p := p.emitKeys (keys.zip keyNumbers)
    placeEntries width entries valueNumbers p
  | .bool value, number, p => p.emitScalar number (.bool value)
  | .int value, number, p => p.emitScalar number (.int value)
  | .real value, number, p => p.emitScalar number (.real value)
  | .date value, number, p => p.emitScalar number (.date value)
  | .string text, number, p => p.emitScalar number (.string text)
  | .data bytes, number, p => p.emitScalar number (.data bytes)
  | .uid slot, number, p => p.emitScalar number (.uid slot)
termination_by structural t => t

/-- Writes the items of an array under their numbers. -/
def placeItems (width : Nat) : List Tree → (numbers : List Nat) → Placement → Placement
  | t :: ts, n :: ns, p => placeItems width ts ns (place width t n p)
  | _, _, p => p
termination_by structural ts => ts

/-- Writes the values of a dictionary under their numbers. -/
def placeEntries (width : Nat) : List (String × Tree) → (numbers : List Nat) → Placement → Placement
  | (_, t) :: es, n :: ns, p => placeEntries width es ns (place width t n p)
  | _, _, p => p
termination_by structural es => es

end

/-! ## Files -/

/-- The trailer of a file. -/
def trailer (offsetWidth referenceWidth count table : Nat) : Bytes :=
  List.replicate 6 0 ++ [UInt8.ofNat offsetWidth, UInt8.ofNat referenceWidth]
    ++ Bytes.bigEndian 8 count ++ Bytes.bigEndian 8 0 ++ Bytes.bigEndian 8 table

/-- The file of a property list. -/
def write (t : Tree) : Bytes :=
  let count := objectCount t
  let referenceWidth := widthFor (count - 1)
  let p := place referenceWidth t 0 Placement.start
  let offsetWidth := widthFor p.position
  let offsets := p.offsets.foldl (fun table (number, offset) => table.setIfInBounds number offset)
    (Array.replicate count 0)
  p.pieces.reverse.flatten ++ references offsetWidth offsets.toList
    ++ trailer offsetWidth referenceWidth count p.position

end PlistCodec.BinaryPlist
