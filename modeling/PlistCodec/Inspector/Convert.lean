import PlistCodec.Archive.File
import PlistCodec.Archive.Flatten
import PlistCodec.Inspector.Options
import PlistCodec.Json
import PlistCodec.Opack.Decode
import PlistCodec.Opack.Encode
import PlistCodec.Tlv8.Record

/-!
# From bytes to bytes

The inspector's work without any file: `decode` makes a tree of the bytes of one format, and
`render` makes the bytes of another format of it.
-/

namespace PlistCodec.Inspector

/-- The part of an archive that was asked for, flattened. -/
def flattenRoot (a : Archive) : (topKey : Option String) → Except Error Tree
  | none => a.flatten.mapError .archive
  | some name =>
    match a.topUid? (some name) with
    | none => .error (.invalidOptions s!"Archive has no $top entry named {name}")
    | some slot => (a.flattenObject slot).mapError .archive

/-- The tree in the bytes of a file; the path serves for reports. -/
def decode (bytes : Bytes) (format : InputFormat) (topKey : Option String) (path : String) :
    Except Error Tree :=
  match format with
  | .opack => (Opack.decode bytes).mapError .opack
  | .tlv => .ok (Tlv8.toTree bytes)
  | .plist =>
    match readPlist? bytes with
    | some t => .ok t
    | none => .error .unreadable
  | .archive =>
    match Archive.ofFile bytes with
    | .error e => .error (.archive e)
    | .ok none => .error (.notAnArchive path)
    | .ok (some a) => flattenRoot a topKey

/-- The bytes of a tree in a format. -/
def render (format : OutputFormat) (t : Tree) : Except Error Bytes :=
  match format with
  | .xml => .ok (Bytes.ofString (XmlPlist.write t ++ "\n"))
  | .json => .ok (Bytes.ofString ((Json.ofTree t).pretty ++ "\n"))
  | .opack => (Opack.encode t).mapError .opack

end PlistCodec.Inspector
