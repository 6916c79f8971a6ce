import PlistCodec.Tree.Basic

/-!
# TLV8 records

A TLV8 stream is a row of records: a tag byte, a length byte, and that many bytes of value.  A
value of more than 255 bytes is spread over several records of one tag, which `joined?` puts
together again.

`next` reads one record and `records` all of them.  Reading stops at the first record that is cut
off, and what stands there is never mistaken for a record: after a cut `next` has nothing left to
read.
-/

namespace PlistCodec.Tlv8

/-- A tag and its value, of at most 255 bytes. -/
structure Record where
  /-- What the value is for. -/
  tag : UInt8
  /-- The bytes behind the length. -/
  value : Bytes
deriving DecidableEq, Repr

/-! ## Reading -/

/-- The first record, and the bytes that remain to be read. -/
def next : Bytes → Option Record × Bytes
  | tag :: length :: rest =>
    match Bytes.takeExactly? length.toNat rest with
    | some (value, remaining) => (some ⟨tag, value⟩, remaining)
    | none => (none, [])
  | header => (none, header)

/-- A record takes at least its two header bytes. -/
theorem length_next_lt {data rest : Bytes} {record : Record} (h : next data = (some record, rest)) :
    rest.length < data.length := by
  unfold next at h
  split at h
  · next tag length tail =>
    split at h
    · next value remaining ht =>
      obtain ⟨_, rfl⟩ := Bytes.takeExactly?_eq_some_iff.mp ht
      cases h
      simp only [List.length_cons, List.length_append]
      omega
    · cases h
  · cases h

/-- All records, in order. -/
def records (data : Bytes) : List Record :=
  match _h : next data with
  | (none, _) => []
  | (some record, rest) => record :: records rest
termination_by data.length
decreasing_by exact length_next_lt _h

/-! ## Looking up -/

/-- The value of the first record with a tag. -/
def first? (data : Bytes) (tag : UInt8) : Option Bytes :=
  ((records data).find? fun record => record.tag = tag).map Record.value

/-- The first record with a tag, read as a little-endian integer of 1, 2, 4 or 8 bytes. -/
def firstNat? (data : Bytes) (tag : UInt8) : Option Nat :=
  (first? data tag).bind fun value =>
    if value.length ∈ [1, 2, 4, 8] then some (Bytes.ofLittleEndian value) else none

/-- The first record with a tag, if its value is a single byte. -/
def firstByte? (data : Bytes) (tag : UInt8) : Option UInt8 :=
  (first? data tag).bind fun
    | [byte] => some byte
    | _ => none

/-- The values of all records with a tag, one behind the other. -/
def joined (data : Bytes) (tag : UInt8) : Bytes :=
  ((records data).filter fun record => record.tag = tag).flatMap Record.value

/-- The values of all records with a tag, one behind the other, if there is such a record. -/
def joined? (data : Bytes) (tag : UInt8) : Option Bytes :=
  if (records data).any fun record => record.tag = tag then some (joined data tag) else none

/-! ## Grouping -/

/-- The key that a tag has in a dictionary: its decimal digits. -/
def keyOfTag (tag : UInt8) : String := toString tag.toNat

/-- Adds the joined value of a record's tag, unless the tag is there already. -/
def addGroup (data : Bytes) (groups : Dict Bytes) (record : Record) : Dict Bytes :=
  if groups.contains (keyOfTag record.tag) then groups
  else
    match joined? data record.tag with
    | some value => groups.insert (keyOfTag record.tag) value
    | none => groups

/-- The joined values of all tags, in the order in which the tags first appear. -/
def groups (data : Bytes) : Dict Bytes :=
  (records data).foldl (addGroup data) []

/-- The joined values of all tags as a property list. -/
def toTree (data : Bytes) : Tree :=
  .dict ((groups data).map fun (key, value) => (key, .data value))

end PlistCodec.Tlv8
