import PlistCodec.Inspector.Session

/-!
# Workspaces

A `Workspace` is a directory held in memory, and what was printed: the surroundings in which a
session can be run and reasoned about without a file system.  Files have names relative to the
directory; a name with slashes stands for a file in a directory of its own.  Directories are there
as far as files are in them.

A path is followed part by part, as a file system does it.  It may lead out of the workspace, but
there is nothing to be found.
-/

namespace PlistCodec.Inspector

/-- Files by their names, the standard output, and the reports. -/
structure Workspace where
  /-- The files. -/
  files : List (String × Bytes)
  /-- What was written to the standard output. -/
  output : Bytes
  /-- What was reported, line by line. -/
  reports : List String
deriving DecidableEq, Repr

namespace Workspace

/-- A workspace with nothing but files. -/
def ofFiles (files : List (String × Bytes)) : Workspace := ⟨files, [], []⟩

/-! ## Paths -/

/-- What a path leads to. -/
inductive Target where
  /-- A directory around the workspace. -/
  | outside
  /-- A directory, by the names on the way to it. -/
  | directory (place : List String)
  /-- A file, by its name in the workspace. -/
  | file (name : String)
  /-- A name that is free, in a directory that is there. -/
  | free (name : String)
deriving DecidableEq, Repr

/-- The most bytes that one part of a path has. -/
def maxPart : Nat := 255

/-- The most bytes that a path has. -/
def maxPath : Nat := 4095

/-- The name of a place in the workspace. -/
def nameOf (place : List String) : String := "/".intercalate place

/-- Whether a file lies in the directory of a name, or deeper. -/
def isDirectory (w : Workspace) (name : String) : Bool :=
  w.files.any fun (file, _) => (name ++ "/").isPrefixOf file

/-- What is at a place below the workspace. -/
def lookUp (w : Workspace) (place : List String) : Target :=
  if Dict.contains w.files (nameOf place) then .file (nameOf place)
  else if w.isDirectory (nameOf place) then .directory place
  else .free (nameOf place)

/-- Follows one part of a path. -/
def enter (w : Workspace) : Target → (part : String) → Except FileFault Target
  | .free _, _ => .error .notFound
  | .file _, _ => .error .notADirectory
  | .outside, part => if ["", ".", ".."].contains part then .ok .outside else .error .notFound
  | .directory place, part =>
    if part = "" || part = "." then .ok (.directory place)
    else if part = ".." then
      .ok (if place.isEmpty then .outside else .directory place.dropLast)
    else if maxPart < part.utf8ByteSize then .error .nameTooLong
    else .ok (w.lookUp (place ++ [part]))

/-- Follows the parts of a path; the first part of an absolute path is empty. -/
def follow (w : Workspace) (parts : List String) : Except FileFault Target :=
  parts.foldlM w.enter (if parts.head? = some "" then .outside else .directory [])

/-- The parts of a path. -/
def parts (path : String) : Except FileFault (List String) :=
  if path.toList.contains '\x00' then .error .nullCharacter
  else if maxPath < path.utf8ByteSize then .error .nameTooLong
  else if path = "" then .error .notFound
  else .ok (path.splitOn "/")

/-- The name of the file that is read at a path. -/
def fileToRead (w : Workspace) (path : String) : Except FileFault String := do
  match ← w.follow (← parts path) with
  | .file name => return name
  | .free _ => throw .notFound
  | .outside => throw .isADirectory
  | .directory _ => throw .isADirectory

/-- The name of the file that is written at a path.  A path with a slash at its end is one of a
directory, even if there is none. -/
def fileToWrite (w : Workspace) (path : String) : Except FileFault String := do
  let parts ← parts path
  let proper := (parts.reverse.dropWhile (· = "")).reverse
  match ← w.follow proper with
  | .file name => if proper = parts then return name else throw .isADirectory
  | .free name => if proper = parts then return name else throw .isADirectory
  | .outside => throw .isADirectory
  | .directory _ => throw .isADirectory

/-! ## Files -/

/-- The content of the file of a name; nothing if there is none. -/
def content (w : Workspace) (name : String) : Bytes := (Dict.get? w.files name).getD []

/-- Gives the file of a name a content. -/
def store (w : Workspace) (name : String) (bytes : Bytes) : Workspace :=
  { w with files := Dict.insert w.files name bytes }

/-- The content of the file at a path. -/
def find (w : Workspace) (path : String) : Except FileFault Bytes :=
  (w.fileToRead path).map w.content

/-- What a session in a workspace writes to. -/
inductive Sink where
  /-- The standard output. -/
  | output
  /-- A file, by its name. -/
  | file (name : String)
deriving DecidableEq, Repr

/-- Writes behind what a sink holds. -/
def write (w : Workspace) : Sink → Bytes → Workspace
  | .output, bytes => { w with output := w.output ++ bytes }
  | .file name, bytes => w.store name (w.content name ++ bytes)

instance : Host (StateM Workspace) where
  Sink := Sink
  readFile path := fun w => (w.find path, w)
  createFile path := fun w =>
    match w.fileToWrite path with
    | .ok name => (.ok (.file name), w.store name [])
    | .error fault => (.error fault, w)
  output := .output
  write sink bytes := fun w => (.ok (), w.write sink bytes)
  report line := fun w => ((), { w with reports := w.reports ++ [line] })

end Workspace

end PlistCodec.Inspector
