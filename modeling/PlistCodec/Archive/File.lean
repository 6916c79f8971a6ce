import PlistCodec.Archive.Basic
import PlistCodec.BinaryPlist.Writer
import PlistCodec.XmlPlist.Reader
import PlistCodec.XmlPlist.Writer

/-!
# Archives as files

An archive is stored as a binary or an XML property list.  What a file is shows in its first bytes;
XML files hold markers in place of references.
-/

namespace PlistCodec

/-- The property list of a file: a binary one if the file begins like one, an XML one otherwise. -/
def readPlist? (file : Bytes) : Option Tree :=
  if file.startsWith BinaryPlist.magic then BinaryPlist.read? file else XmlPlist.read? file

namespace Archive

/-- Whether a file begins like an XML property list. -/
def looksLikeXml (file : Bytes) : Bool :=
  file.startsWith (Bytes.ofString "<?xml") || file.startsWith (Bytes.ofString "<plist")

/-- The property list of a file that may hold an archive, or nothing if it does not begin like a
property list. -/
def sniff (file : Bytes) : Except Error (Option Tree) :=
  if file.startsWith BinaryPlist.magic then
    (orFail .unreadable (BinaryPlist.read? file)).map some
  else if looksLikeXml file then
    (orFail .unreadable (XmlPlist.read? file)).map fun t => some t.unmarkUids
  else .ok none

/-- The archive in a file, or nothing if the file does not begin like a property list. -/
def ofFile (file : Bytes) : Except Error (Option Archive) := do
  match ← sniff file with
  | some t => return some (← ofTree t)
  | none => return none

/-- The archive as a binary file. -/
def toBinary (a : Archive) : Bytes := BinaryPlist.write a.toTree

/-- The archive as an XML file. -/
def toXml (a : Archive) : Bytes := Bytes.ofString (XmlPlist.write a.toTree)

end Archive

end PlistCodec
