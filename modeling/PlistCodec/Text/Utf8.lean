import PlistCodec.Bytes

/-!
# Reading UTF-8

`Utf8.decode` turns a byte string into text, or says where and how the bytes stop being UTF-8.
The report comes from one pass of `Utf8.scan`, which remembers where the current sequence began
and which bytes may still follow in it; a byte that may not follow ends the sequence, and the part
of it that was read so far is the reported length.

Overlong forms, surrogates and values above U+10FFFF are refused by the ranges of the byte after
the lead byte.
-/

namespace PlistCodec

/-- How a byte string fails to be UTF-8.  Positions count bytes from the start of the string. -/
inductive Utf8Fault where
  /-- The `length` bytes from `index` begin no sequence that the next byte could continue. -/
  | invalid (index length : Nat)
  /-- The string ends inside the sequence that begins at `index`. -/
  | incomplete (index : Nat)
deriving DecidableEq, Repr

namespace Utf8Fault

/-- The report of a fault. -/
def message : Utf8Fault → String
  | .invalid index length => s!"invalid utf-8 sequence of {length} bytes from index {index}"
  | .incomplete index => s!"incomplete utf-8 byte sequence from index {index}"

end Utf8Fault

namespace Utf8

/-! ## The shape of a sequence -/

/-- An inclusive range of bytes. -/
structure ByteRange where
  /-- The least byte of the range. -/
  low : UInt8
  /-- The greatest byte of the range. -/
  high : UInt8

/-- Whether a byte lies in a range. -/
def ByteRange.contains (r : ByteRange) (b : UInt8) : Bool :=
  r.low ≤ b && b ≤ r.high

/-- The range of an unrestricted continuation byte. -/
def tail : ByteRange := ⟨0x80, 0xBF⟩

/-- The ranges of the bytes that follow a lead byte, or nothing for a byte that leads nothing. -/
def continuations (lead : UInt8) : Option (List ByteRange) :=
  if lead < 0x80 then some []
  else if lead < 0xC2 then none
  else if lead < 0xE0 then some [tail]
  else if lead = 0xE0 then some [⟨0xA0, 0xBF⟩, tail]
  else if lead = 0xED then some [⟨0x80, 0x9F⟩, tail]
  else if lead < 0xF0 then some [tail, tail]
  else if lead = 0xF0 then some [⟨0x90, 0xBF⟩, tail, tail]
  else if lead < 0xF4 then some [tail, tail, tail]
  else if lead = 0xF4 then some [⟨0x80, 0x8F⟩, tail, tail]
  else none

/-! ## Scanning -/

/-- The first fault of a byte string, read from inside a sequence that began at `start`, of which
`read` bytes were read and whose next bytes are to lie in `due`. -/
def scan : Bytes → (start read : Nat) → (due : List ByteRange) → Option Utf8Fault
  | [], _, _, [] => none
  | [], start, _, _ :: _ => some (.incomplete start)
  | b :: bs, start, read, [] =>
    match continuations b with
    | none => some (.invalid (start + read) 1)
    | some due => scan bs (start + read) 1 due
  | b :: bs, start, read, range :: due =>
    if range.contains b then scan bs start (read + 1) due else some (.invalid start read)

/-- The first fault of a byte string that is not UTF-8.  A string without a fault counts as cut
off at its end. -/
def fault (bs : Bytes) : Utf8Fault :=
  (scan bs 0 0 []).getD (.incomplete bs.length)

/-- The text of a byte string, or its first fault. -/
def decode (bs : Bytes) : Except Utf8Fault String :=
  match String.fromUTF8? bs.toByteArray with
  | some text => .ok text
  | none => .error (fault bs)

/-- The text of a byte string, if it is UTF-8. -/
def decode? (bs : Bytes) : Option String :=
  String.fromUTF8? bs.toByteArray

/-- The bytes of a text read back as that text. -/
theorem decode_ofString (s : String) : decode (Bytes.ofString s) = .ok s := by
  have h : (Bytes.ofString s).toByteArray = s.toByteArray := by
    apply ByteArray.ext
    apply Array.toList_inj.mp
    simp [Bytes.ofString]
  have valid : s.toByteArray.IsValidUTF8 := s.isValidUTF8
  simp only [decode, h, String.fromUTF8?, valid, dite_true]
  rfl

/-- Only the bytes of a text read as that text. -/
theorem eq_ofString_of_decode {bs : Bytes} {text : String} (h : decode bs = .ok text) :
    bs = Bytes.ofString text := by
  rw [decode, String.fromUTF8?] at h
  split at h
  · next found hfound =>
    cases h
    split at hfound
    · cases hfound
      simp [Bytes.ofString, String.fromUTF8]
    · cases hfound
  · cases h

end Utf8

end PlistCodec
