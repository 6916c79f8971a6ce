import PlistCodec.Binary64.Decimal
import PlistCodec.Text.Utf8

/-!
# Failures of the OPACK codec

One constructor for each cause.  Offsets count bytes from the start of the stream.
-/

namespace PlistCodec.Opack

/-- Why bytes are not OPACK, or why a tree has no OPACK form. -/
inductive Error where
  /-- A read would end at index `stop`, behind the end of a stream of `length` bytes. -/
  | outOfBounds (stop length : Nat)
  /-- The payload of a string is not UTF-8. -/
  | invalidText (fault : Utf8Fault)
  /-- The value at `offset` stands where a key has to stand and is not a string. -/
  | invalidKey (offset : Nat)
  /-- The byte at `offset` is no tag. -/
  | unexpectedByte (byte : UInt8) (offset : Nat)
  /-- A terminator stands at `offset`, where a value has to stand. -/
  | unexpectedTerminator (offset : Nat)
  /-- Containers are nested more than `depth` deep. -/
  | recursionLimit (depth : Nat)
  /-- The format has no form for this kind of node. -/
  | unsupportedKind (kind : String)
  /-- No date lies this many seconds after the reference date. -/
  | invalidDate (seconds : Binary64)
  /-- The stream holds no value. -/
  | empty
deriving DecidableEq, Repr

/-- The report of a failure. -/
def Error.message : Error → String
  | .outOfBounds stop length =>
    s!"Index {Bytes.hex stop} is outside of range {Bytes.hex length}!"
  | .invalidText fault => s!"Failed to parse string: {fault.message}"
  | .invalidKey offset => s!"Dictionary key at offset {Bytes.hex offset} is not a string!"
  | .unexpectedByte byte offset =>
    s!"Unexpected byte {Bytes.hexByte byte} at offset {Bytes.hex offset}"
  | .unexpectedTerminator offset =>
    s!"Expected child node, found terminator at offset {Bytes.hex offset}"
  | .recursionLimit depth => s!"Nesting exceeds the maximum depth of {depth}"
  | .unsupportedKind kind => s!"Unsupported data type in plist: {kind}"
  | .invalidDate seconds => s!"Invalid date value: {seconds.positional}"
  | .empty => "No OPACK data to decode"

end PlistCodec.Opack
