/-!
# Tags

Every OPACK value begins with one byte that names its kind and, for small values, holds the value,
length or count itself.  `Tag` is what such a byte announces:

| bytes | announced |
|---|---|
| `01`, `02` | true, false |
| `03` | the end of an open container |
| `06` | a date: eight bytes |
| `08` to `2F` | an integer from 0 to 39 |
| `30`, `32`, `33` | an integer of one, four or eight bytes |
| `35`, `36` | a real of four or eight bytes |
| `40` to `60`, `61` to `64` | a text: its length in the tag, or in 1, 2, 4 or 8 bytes |
| `70` to `90`, `91` to `94` | data, in the same way |
| `D0` to `DE`, `DF` | an array: its count in the tag, or an end mark behind its items |
| `E0` to `EE`, `EF` | a dictionary, in the same way |

`toByte` writes a tag and `ofByte?` reads it; `ofByte?_toByte` says that they agree on the tags that
have a byte, and `toByte_of_ofByte?` that every byte stands for one tag at most.
-/

namespace PlistCodec.Opack

/-- How many bytes a length takes. -/
inductive Width where
  /-- One byte. -/
  | one
  /-- Two bytes. -/
  | two
  /-- Four bytes. -/
  | four
  /-- Eight bytes. -/
  | eight
deriving DecidableEq, Repr

/-- The number of bytes of a width. -/
def Width.bytes : Width → Nat
  | .one => 1
  | .two => 2
  | .four => 4
  | .eight => 8

/-- What follows a tag with a length. -/
inductive Payload where
  /-- The UTF-8 bytes of a text. -/
  | text
  /-- Bytes of any kind. -/
  | data
deriving DecidableEq, Repr

/-- What follows a tag with a count. -/
inductive Container where
  /-- The items of an array. -/
  | array
  /-- The keys and values of a dictionary. -/
  | dict
deriving DecidableEq, Repr

/-- What the first byte of a value announces. -/
inductive Tag where
  /-- A truth value. -/
  | bool (value : Bool)
  /-- The end of an open container. -/
  | terminator
  /-- A date. -/
  | date
  /-- An integer held by the tag. -/
  | small (value : Nat)
  /-- An integer in one byte, with its sign. -/
  | int8
  /-- An integer in four bytes. -/
  | int32
  /-- An integer in eight bytes. -/
  | int64
  /-- A real in four bytes. -/
  | real32
  /-- A real in eight bytes. -/
  | real64
  /-- A payload whose length is held by the tag. -/
  | short (kind : Payload) (length : Nat)
  /-- A payload behind its length. -/
  | sized (kind : Payload) (width : Width)
  /-- A container whose count is held by the tag. -/
  | counted (kind : Container) (count : Nat)
  /-- A container that ends with a terminator. -/
  | opened (kind : Container)
deriving DecidableEq, Repr

namespace Tag

/-- The greatest integer that a tag holds. -/
def maxSmall : Nat := 0x27

/-- The greatest length that a tag holds. -/
def maxShort : Nat := 0x20

/-- The greatest count that a tag holds. -/
def maxCount : Nat := 14

/-- The tag of the empty payload of a kind. -/
def payloadBase : Payload → Nat
  | .text => 0x40
  | .data => 0x70

/-- The tag of the empty container of a kind. -/
def containerBase : Container → Nat
  | .array => 0xD0
  | .dict => 0xE0

/-- The place of a width among the tags that name one. -/
def widthIndex : Width → Nat
  | .one => 0
  | .two => 1
  | .four => 2
  | .eight => 3

/-- The width at a place. -/
def widthAt : Nat → Width
  | 0 => .one
  | 1 => .two
  | 2 => .four
  | _ => .eight

/-- The tag as a number. -/
def toNat : Tag → Nat
  | .bool true => 0x01
  | .bool false => 0x02
  | .terminator => 0x03
  | .date => 0x06
  | .small value => 0x08 + value
  | .int8 => 0x30
  | .int32 => 0x32
  | .int64 => 0x33
  | .real32 => 0x35
  | .real64 => 0x36
  | .short kind length => payloadBase kind + length
  | .sized kind width => payloadBase kind + 0x21 + widthIndex width
  | .counted kind count => containerBase kind + count
  | .opened kind => containerBase kind + 0x0F

/-- The tag as a byte. -/
def toByte (t : Tag) : UInt8 := UInt8.ofNat t.toNat

/-- The tag of a payload, given the distance of its byte from that of the empty payload. -/
def ofPayloadOffset (kind : Payload) (offset : Nat) : Tag :=
  if offset ≤ maxShort then .short kind offset else .sized kind (widthAt (offset - 0x21))

/-- The tag of a container, given the distance of its byte from that of the empty container. -/
def ofContainerOffset (kind : Container) (offset : Nat) : Tag :=
  if offset ≤ maxCount then .counted kind offset else .opened kind

/-- What a byte announces; some bytes announce nothing. -/
def ofByte? (byte : UInt8) : Option Tag :=
  let n := byte.toNat
  if n = 0x01 then some (.bool true)
  else if n = 0x02 then some (.bool false)
  else if n = 0x03 then some .terminator
  else if n = 0x06 then some .date
  else if n < 0x08 then none
  else if n < 0x30 then some (.small (n - 0x08))
  else if n = 0x30 then some .int8
  else if n = 0x32 then some .int32
  else if n = 0x33 then some .int64
  else if n = 0x35 then some .real32
  else if n = 0x36 then some .real64
  else if n < 0x40 then none
  else if n ≤ 0x64 then some (ofPayloadOffset .text (n - 0x40))
  else if n < 0x70 then none
  else if n ≤ 0x94 then some (ofPayloadOffset .data (n - 0x70))
  else if n < 0xD0 then none
  else if n ≤ 0xDF then some (ofContainerOffset .array (n - 0xD0))
  else if n ≤ 0xEF then some (ofContainerOffset .dict (n - 0xE0))
  else none

/-- Whether a tag has a byte: what it holds is not too large. -/
def fits : Tag → Bool
  | .small value => value ≤ maxSmall
  | .short _ length => length ≤ maxShort
  | .counted _ count => count ≤ maxCount
  | _ => true

/-! ## Laws -/

/-- A tag that has a byte is what that byte announces. -/
theorem ofByte?_toByte {t : Tag} (h : t.fits) : ofByte? t.toByte = some t := by
  have small : ∀ n : Fin 40, ofByte? (Tag.small n).toByte = some (.small n) := by decide +kernel
  have short : ∀ n : Fin 33, ∀ kind ∈ [Payload.text, .data],
      ofByte? (Tag.short kind n).toByte = some (.short kind n) := by decide +kernel
  have counted : ∀ n : Fin 15, ∀ kind ∈ [Container.array, .dict],
      ofByte? (Tag.counted kind n).toByte = some (.counted kind n) := by decide +kernel
  cases t with
  | bool value => cases value <;> decide +kernel
  | small n =>
    exact small ⟨n, Nat.lt_succ_of_le (of_decide_eq_true h)⟩
  | short kind n =>
    exact short ⟨n, Nat.lt_succ_of_le (of_decide_eq_true h)⟩ kind (by cases kind <;> decide)
  | counted kind n =>
    exact counted ⟨n, Nat.lt_succ_of_le (of_decide_eq_true h)⟩ kind (by cases kind <;> decide)
  | sized kind width => cases kind <;> cases width <;> decide +kernel
  | opened kind => cases kind <;> decide +kernel
  | _ => decide +kernel

/-- A byte that announces a tag is the byte of that tag. -/
theorem toByte_of_ofByte? {byte : UInt8} {t : Tag} (h : ofByte? byte = some t) :
    t.toByte = byte ∧ t.fits := by
  have all : ∀ n : Fin 256,
      (ofByte? (UInt8.ofNat n)).all fun t => t.toByte = UInt8.ofNat n && t.fits := by
    decide +kernel
  have := all ⟨byte.toNat, byte.toNat_lt⟩
  simpa [h] using this

end Tag

end PlistCodec.Opack
