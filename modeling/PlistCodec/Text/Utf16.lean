/-!
# UTF-16

A text as 16-bit units: one for a character below U+10000 and two, a high and a low surrogate, for
any other one.  Reading refuses a surrogate without its partner.
-/

namespace PlistCodec.Utf16

/-- The units of a character. -/
def encodeChar (c : Char) : List Nat :=
  let n := c.toNat
  if n < 0x10000 then [n]
  else [0xD800 + (n - 0x10000) / 0x400, 0xDC00 + (n - 0x10000) % 0x400]

/-- The units of a text. -/
def encode (text : String) : List Nat := text.toList.flatMap encodeChar

/-- Whether a unit is the first one of a pair. -/
def isHigh (unit : Nat) : Bool := 0xD800 ≤ unit && unit < 0xDC00

/-- Whether a unit is the second one of a pair. -/
def isLow (unit : Nat) : Bool := 0xDC00 ≤ unit && unit < 0xE000

/-- The characters of a row of units; `read` are the ones in front of it, in reverse. -/
def decodeFrom (read : List Char) : List Nat → Option (List Char)
  | [] => some read.reverse
  | [unit] => if isHigh unit || isLow unit then none else some (Char.ofNat unit :: read).reverse
  | unit :: next :: units =>
    if isHigh unit then
      if isLow next then
        decodeFrom (Char.ofNat (0x10000 + (unit - 0xD800) * 0x400 + (next - 0xDC00)) :: read) units
      else none
    else if isLow unit then none
    else decodeFrom (Char.ofNat unit :: read) (next :: units)

/-- The text of a row of units. -/
def decode? (units : List Nat) : Option String := (decodeFrom [] units).map String.ofList

end PlistCodec.Utf16
