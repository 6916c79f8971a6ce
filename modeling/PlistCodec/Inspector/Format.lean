import PlistCodec.Text.LowerCase

/-!
# Formats of the inspector

The inspector reads four kinds of files and writes three.  Their names are the ones of the command
line and of the reports; a name is recognised in any case of its letters.
-/

namespace PlistCodec.Inspector

/-- What a file that is read may hold. -/
inductive InputFormat where
  /-- An OPACK stream. -/
  | opack
  /-- TLV8 records. -/
  | tlv
  /-- A keyed archive, which is flattened. -/
  | archive
  /-- A property list. -/
  | plist
deriving DecidableEq, Repr

/-- What a file that is written may hold. -/
inductive OutputFormat where
  /-- An XML property list. -/
  | xml
  /-- JSON. -/
  | json
  /-- An OPACK stream. -/
  | opack
deriving DecidableEq, Repr

/-- The name of an input format. -/
def InputFormat.name : InputFormat → String
  | .opack => "opack"
  | .tlv => "tlv"
  | .archive => "archive"
  | .plist => "plist"

/-- The input formats, in the order in which they are listed. -/
def InputFormat.all : List InputFormat := [.opack, .tlv, .archive, .plist]

/-- The input format of a name. -/
def InputFormat.ofName? (text : String) : Option InputFormat :=
  all.find? fun format => format.name = lowerCase text

/-- The name of an output format. -/
def OutputFormat.name : OutputFormat → String
  | .xml => "xml"
  | .json => "json"
  | .opack => "opack"

/-- The output formats, in the order in which they are listed. -/
def OutputFormat.all : List OutputFormat := [.xml, .json, .opack]

/-- The output format of a name. -/
def OutputFormat.ofName? (text : String) : Option OutputFormat :=
  all.find? fun format => format.name = lowerCase text

end PlistCodec.Inspector
