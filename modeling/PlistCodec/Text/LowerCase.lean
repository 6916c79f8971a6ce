/-!
# Lower case

Names that are compared without regard to case are ASCII words, so of the lower-case mapping of
Unicode only what leads to an ASCII letter matters: the capital ASCII letters, and the Kelvin sign,
whose lower-case letter is an ordinary k.
-/

namespace PlistCodec

/-- The Kelvin sign. -/
def kelvinSign : Char := '\u212a'

/-- The lower-case letter of a character, as far as that is an ASCII letter. -/
def lowerChar (c : Char) : Char := if c = kelvinSign then 'k' else c.toLower

/-- A text with all letters that have an ASCII lower case in it. -/
def lowerCase (text : String) : String := String.ofList (text.toList.map lowerChar)

end PlistCodec
