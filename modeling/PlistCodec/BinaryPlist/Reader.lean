import PlistCodec.BinaryPlist.Timestamp
import PlistCodec.Text.Utf16
import PlistCodec.Text.Utf8
import PlistCodec.Tree.Basic

/-!
# Reading binary property lists

A binary property list is a table of objects.  The trailer at its end says where the table of their
offsets lies and which object is the outermost one; collections refer to their members by number.

An object may be referred to any number of times, but not from within itself.  As a chain of
references that is longer than the table must come back to an object on it, the reader follows
chains up to that length and needs no other check.
-/

namespace PlistCodec.BinaryPlist

/-- The bytes that every binary property list begins with. -/
def magic : Bytes := Bytes.ofString "bplist00"

/-- The length of the trailer. -/
def trailerLength : Nat := 32

/-! ## Bytes of a file -/

/-- The `length` bytes from an offset on. -/
def slice? (file : ByteArray) (offset length : Nat) : Option Bytes :=
  if offset + length ≤ file.size then some (file.extract offset (offset + length)).data.toList
  else none

/-- The number in the `width` bytes from an offset on. -/
def number? (file : ByteArray) (offset width : Nat) : Option Nat :=
  (slice? file offset width).map Bytes.ofBigEndian

/-- The bytes of a row of numbers of one width, number by number. -/
def groups (width : Nat) : (count : Nat) → Bytes → List Bytes
  | 0, _ => []
  | count + 1, bs => bs.take width :: groups width count (bs.drop width)

/-- Whether offsets and references may have a width. -/
def isWidth (width : Nat) : Bool :=
  width = 1 || width = 2 || width = 3 || width = 4 || width = 8

/-- What the trailer and the offset table say about a file. -/
structure Layout where
  /-- The bytes of the file. -/
  file : ByteArray
  /-- The offset of the trailer, before which all objects have to begin. -/
  limit : Nat
  /-- The width of a reference. -/
  referenceWidth : Nat
  /-- The offset of each object. -/
  offsets : Array Nat
  /-- The number of the outermost object. -/
  root : Nat

/-- The `length` bytes from `start` on, which belong to what begins at `offset`.  The length is
refused if so many bytes do not fit between `offset` and the trailer; they need not end in front of
the trailer themselves. -/
def Layout.slice? (l : Layout) (offset start length : Nat) : Option Bytes :=
  if offset + length ≤ l.limit then BinaryPlist.slice? l.file start length else none

/-- Numbers of one width from `start` on, which belong to what begins at `offset`. -/
def Layout.numbers? (l : Layout) (offset start count width : Nat) : Option (List Nat) :=
  (l.slice? offset start (count * width)).map fun bs =>
    (groups width count bs).map Bytes.ofBigEndian

/-- Reads the trailer and the offset table. -/
def layout? (file : ByteArray) : Option Layout := do
  let start ← slice? file 0 magic.length
  if start != magic || file.size < trailerLength then none
  else
    let limit := file.size - trailerLength
    let offsetWidth ← number? file (limit + 6) 1
    let referenceWidth ← number? file (limit + 7) 1
    let count ← number? file (limit + 8) 8
    let root ← number? file (limit + 16) 8
    let table ← number? file (limit + 24) 8
    if isWidth offsetWidth && isWidth referenceWidth then
      let l : Layout := ⟨file, limit, referenceWidth, #[], root⟩
      let offsets ← l.numbers? table table count offsetWidth
      some { l with offsets := offsets.toArray }
    else none

/-! ## Objects -/

/-- The length of an object whose token is at `offset`, and the offset of what follows it. -/
def Layout.length? (l : Layout) (offset low : Nat) : Option (Nat × Nat) :=
  if low = 0xF then do
    let size ← number? l.file (offset + 1) 1
    let width := 1 <<< (size % 4)
    let length ← number? l.file (offset + 2) width
    some (length, offset + 2 + width)
  else some (low, offset + 1)

/-- The integer in `width` bytes.  Up to four bytes have no sign, and sixteen bytes hold no more
than eight bytes could without a sign. -/
def integer? (width : Nat) (bs : Bytes) : Option Tree :=
  let n := Bytes.ofBigEndian bs
  if width = 8 then
    some (.int (if n < Bytes.signLimit 8 then (n : Int) else (n : Int) - Bytes.values 8))
  else if n < Bytes.values 8 then some (.int n)
  else none

/-- The value of a scalar whose token is at `offset`. -/
def Layout.scalar? (l : Layout) (offset high low : Nat) : Option Tree :=
  let fixed := fun width => BinaryPlist.slice? l.file (offset + 1) width
  match high, low with
  | 0x0, 0x8 => some (.bool false)
  | 0x0, 0x9 => some (.bool true)
  | 0x1, _ =>
    if low ≤ 4 then (fixed (1 <<< low)).bind (integer? (1 <<< low)) else none
  | 0x2, 0x2 =>
    (fixed 4).map fun bs => .real (.widen (UInt32.ofNat (Bytes.ofBigEndian bs)))
  | 0x2, 0x3 => (fixed 8).map fun bs => .real ⟨UInt64.ofNat (Bytes.ofBigEndian bs)⟩
  | 0x3, 0x3 => do
    let bs ← fixed 8
    (dateOfSeconds? ⟨UInt64.ofNat (Bytes.ofBigEndian bs)⟩).map .date
  | 0x4, _ => do
    let (length, start) ← l.length? offset low
    (l.slice? offset start length).map .data
  | 0x5, _ => do
    let (length, start) ← l.length? offset low
    (Utf8.decode? (← l.slice? offset start length)).map .string
  | 0x6, _ => do
    let (length, start) ← l.length? offset low
    (Utf16.decode? (← l.numbers? offset start length 2)).map .string
  | 0x8, _ =>
    if low < 8 then (fixed (low + 1)).map fun bs => .uid (Bytes.ofBigEndian bs) else none
  | _, _ => none

/-- Keys and values as entries, if all keys are strings. -/
def entries? (keys values : List Tree) : Option (List (String × Tree)) :=
  (keys.zip values).mapM fun (key, value) => key.string?.map fun key => (key, value)

/-- The tree of an object, over at most `levels` references. -/
def Layout.object? (l : Layout) : (levels : Nat) → (number : Nat) → Option Tree
  | 0, _ => none
  | levels + 1, number => do
    let offset ← l.offsets[number]?
    if offset < l.limit then
      let token ← number? l.file offset 1
      let high := token / 16
      let low := token % 16
      if high = 0xA then do
        let (count, start) ← l.length? offset low
        let references ← l.numbers? offset start count l.referenceWidth
        return .array (← references.mapM (object? l levels))
      else if high = 0xD then do
        let (count, start) ← l.length? offset low
        let keys ← l.numbers? offset start count l.referenceWidth
        let behind := start + count * l.referenceWidth
        let values ← l.numbers? offset behind count l.referenceWidth
        let keyTrees ← keys.mapM (object? l levels)
        let valueTrees ← values.mapM (object? l levels)
        return .dict (Dict.ofList (← entries? keyTrees valueTrees))
      else l.scalar? offset high low
    else none

/-- The property list of a file. -/
def read? (bytes : Bytes) : Option Tree := do
  let l ← layout? bytes.toByteArray
  l.object? l.offsets.size l.root

end PlistCodec.BinaryPlist
