import PlistCodec.Archive.Error
import PlistCodec.Opack.Error
import PlistCodec.Text.Quoted

/-!
# Failures of the inspector
-/

namespace PlistCodec.Inspector

/-- What a file system answers when it cannot do what it was asked for. -/
inductive FileFault where
  /-- There is no such file, or no directory to hold it. -/
  | notFound
  /-- A file stands where a directory has to stand. -/
  | notADirectory
  /-- A directory stands where a file has to stand. -/
  | isADirectory
  /-- A name on the path, or the whole path, is too long. -/
  | nameTooLong
  /-- The path holds a null character. -/
  | nullCharacter
  /-- Anything else, in the words of the system. -/
  | other (text : String)
deriving DecidableEq, Repr

/-- The words of a file fault. -/
def FileFault.message : FileFault → String
  | .notFound => "No such file or directory (os error 2)"
  | .notADirectory => "Not a directory (os error 20)"
  | .isADirectory => "Is a directory (os error 21)"
  | .nameTooLong => "File name too long (os error 36)"
  | .nullCharacter => "file name contained an unexpected NUL byte"
  | .other text => text

/-- Why the inspector could not do what it was asked for. -/
inductive Error where
  /-- The options make no sense. -/
  | invalidOptions (why : String)
  /-- The file to write could not be created. -/
  | createFailed (fault : FileFault) (path : String)
  /-- The file to read could not be read. -/
  | readFailed (fault : FileFault) (path : String)
  /-- The result could not be written. -/
  | writeFailed (fault : FileFault)
  /-- The OPACK codec failed. -/
  | opack (e : Opack.Error)
  /-- The archive could not be read or flattened. -/
  | archive (e : Archive.Error)
  /-- The file is no property list. -/
  | unreadable
  /-- The file does not even begin like a property list that could hold an archive. -/
  | notAnArchive (path : String)
deriving DecidableEq, Repr

/-- The report of a failure. -/
def Error.message : Error → String
  | .invalidOptions why => s!"Invalid options!\n{why}"
  | .createFailed fault path => fault.message ++ ": " ++ Quoted.quote path
  | .readFailed fault path => "Unable to read " ++ Quoted.quote path ++ ": " ++ fault.message
  | .writeFailed fault => fault.message
  | .opack e => e.message
  | .archive e => e.message
  | .unreadable => "Unable to parse plist"
  | .notAnArchive path => Quoted.quote path ++ " does not contain a property list"

end PlistCodec.Inspector
