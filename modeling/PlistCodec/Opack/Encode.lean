import PlistCodec.Opack.Reader

/-!
# Writing OPACK

`encode` writes a tree in the narrowest forms: a length or count goes into the tag while it fits, a
real is narrowed to four bytes if that loses nothing, and an integer takes the fewest bytes that
hold its 64 bits.  The first node in reading order that has no form decides the failure.
-/

namespace PlistCodec.Opack

/-! ## Scalars -/

/-- A tag with its length, for a payload of `length` bytes. -/
def lengthHeader (kind : Payload) (length : Nat) : Bytes :=
  if length ≤ Tag.maxShort then [(Tag.short kind length).toByte]
  else
    let width : Width :=
      if length < Bytes.values 1 then .one
      else if length < Bytes.values 2 then .two
      else if length < Bytes.values 4 then .four
      else .eight
    (Tag.sized kind width).toByte :: Bytes.littleEndian width.bytes length

/-- A payload with its header. -/
def encodePayload (kind : Payload) (bytes : Bytes) : Bytes :=
  lengthHeader kind bytes.length ++ bytes

/-- A text with its header. -/
def encodeText (text : String) : Bytes := encodePayload .text (Bytes.ofString text)

/-- An integer of 64 bits. -/
def encodeWord (n : Nat) : Bytes :=
  if n ≤ Tag.maxSmall then [(Tag.small n).toByte]
  else if n < Bytes.values 1 then Tag.int8.toByte :: Bytes.littleEndian 1 n
  else if n < Bytes.values 4 then Tag.int32.toByte :: Bytes.littleEndian 4 n
  else Tag.int64.toByte :: Bytes.littleEndian 8 n

/-- A real, in four bytes if they give it back. -/
def encodeReal (x : Binary64) : Bytes :=
  let short := x.narrow
  if (Binary64.widen short).numEq x then
    Tag.real32.toByte :: Bytes.bigEndian 4 short.toNat
  else Tag.real64.toByte :: Bytes.bigEndian 8 x.bits.toNat

/-- A date, if its year has a calendar. -/
def encodeDate (d : Date) : Except Error Bytes :=
  match d.toReferenceSeconds? with
  | some seconds => .ok (Tag.date.toByte :: Bytes.bigEndian 8 seconds.bits.toNat)
  | none => .error (.invalidDate d.lossyReferenceSeconds)

/-! ## Trees -/

/-- The children of a container between its tag and, if it is open, its end mark. -/
def encodeContainer (kind : Container) (count : Nat) (children : Bytes) : Bytes :=
  if count ≤ Tag.maxCount then (Tag.counted kind count).toByte :: children
  else (Tag.opened kind).toByte :: children ++ [Tag.terminator.toByte]

mutual

/-- The bytes of a tree that may nest `levels` deep, the outermost node counted. -/
def encodeWithin : Tree → (levels : Nat) → Except Error Bytes
  | _, 0 => .error (.recursionLimit maxDepth)
  | .bool value, _ + 1 => .ok [(Tag.bool value).toByte]
  | .int value, _ + 1 => .ok (encodeWord (Tree.wordOfInt value))
  | .real value, _ + 1 => .ok (encodeReal value)
  | .date value, _ + 1 => encodeDate value
  | .string text, _ + 1 => .ok (encodeText text)
  | .data bytes, _ + 1 => .ok (encodePayload .data bytes)
  | .uid slot, _ + 1 => .error (.unsupportedKind (Tree.uid slot).kindName)
  | .array items, levels + 1 =>
    (encodeItems items levels).map (encodeContainer .array items.length)
  | .dict entries, levels + 1 =>
    (encodeEntries entries levels).map (encodeContainer .dict entries.length)
termination_by structural t => t

/-- The bytes of the items of an array. -/
def encodeItems : List Tree → (levels : Nat) → Except Error Bytes
  | [], _ => .ok []
  | t :: ts, levels => do
    let head ← encodeWithin t levels
    let tail ← encodeItems ts levels
    return head ++ tail
termination_by structural ts => ts

/-- The bytes of the entries of a dictionary. -/
def encodeEntries : List (String × Tree) → (levels : Nat) → Except Error Bytes
  | [], _ => .ok []
  | (key, t) :: es, levels => do
    let head ← encodeWithin t levels
    let tail ← encodeEntries es levels
    return encodeText key ++ head ++ tail
termination_by structural es => es

end

/-- The bytes of a tree. -/
def encode (t : Tree) : Except Error Bytes := encodeWithin t (maxDepth + 1)

end PlistCodec.Opack
