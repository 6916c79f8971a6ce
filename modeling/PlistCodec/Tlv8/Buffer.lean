import PlistCodec.Tlv8.Record

/-!
# Building TLV8 streams

A `Buffer` holds the bytes of the records appended so far and the capacity set aside for them.  The
capacity grows in blocks, by as many as the new records need and one more, and only when they would
not fit.
-/

namespace PlistCodec.Tlv8

/-- The most bytes that one record holds. -/
def maxValue : Nat := 255

/-- The size of a block of capacity. -/
def blockSize : Nat := 1024

/-- The records of a value: full ones, and a shorter last one if something is left. -/
def split (tag : UInt8) (value : Bytes) : List Record :=
  if value.isEmpty then []
  else ⟨tag, value.take maxValue⟩ :: split tag (value.drop maxValue)
termination_by value.length
decreasing_by
  rw [List.length_drop]
  have : value.length ≠ 0 := by simp_all
  have : 0 < maxValue := by decide
  omega

/-- The bytes of a record. -/
def Record.encode (record : Record) : Bytes :=
  record.tag :: UInt8.ofNat record.value.length :: record.value

/-- The number of bytes of the records of a value of `length` bytes. -/
def encodedLength (length : Nat) : Nat :=
  length + 2 * ((length + (maxValue - 1)) / maxValue)

/-- A growing stream of records. -/
structure Buffer where
  /-- The bytes of the records. -/
  bytes : Bytes
  /-- The number of bytes that fit before the buffer has to grow. -/
  capacity : Nat
deriving DecidableEq, Repr

namespace Buffer

/-- A buffer without records, of one block. -/
def empty : Buffer := ⟨[], blockSize⟩

/-- The capacity that a buffer needs to take `required` more bytes. -/
def grown (b : Buffer) (required : Nat) : Nat :=
  if b.capacity < b.bytes.length + required then
    b.capacity + (required / blockSize + 1) * blockSize
  else b.capacity

/-- Appends the records of a value; an empty value has none. -/
def append (b : Buffer) (tag : UInt8) (value : Bytes) : Buffer :=
  ⟨b.bytes ++ (split tag value).flatMap Record.encode, b.grown (encodedLength value.length)⟩

end Buffer

end PlistCodec.Tlv8
