import PlistCodec.Inspector.Convert

/-!
# Sessions

A session reads a file, makes a tree of it, and writes the tree in another format.  What it needs
of its surroundings is the class `Host`: files to read, files and the standard output to write to,
and a place for reports.  Nothing is created before the result is complete, so a session that fails
to read, decode or render leaves all files as they are.
-/

namespace PlistCodec.Inspector

/-- The surroundings of a session. -/
class Host (m : Type → Type) where
  /-- What can be written to. -/
  Sink : Type
  /-- The content of a file. -/
  readFile : (path : String) → m (Except FileFault Bytes)
  /-- Makes a file empty, or creates it, and opens it. -/
  createFile : (path : String) → m (Except FileFault Sink)
  /-- The standard output. -/
  output : Sink
  /-- Writes bytes behind what was written before. -/
  write : Sink → Bytes → m (Except FileFault Unit)
  /-- Writes a line for the user. -/
  report : String → m Unit

variable {m : Type → Type} [Monad m] [Host m]

/-- The version that the inspector shows. -/
def versionText : String := "glue-inspect 0.1.0\n"

/-- The help that the inspector shows. -/
def helpText : String :=
  "Usage: glue-inspect [OPTIONS]\n\n" ++
    String.join (longSwitches.map fun (name, _) => "  --" ++ name ++ "\n")

/-- Reads and decodes the file that the options name. -/
def load (o : Options) : m (Except Error Tree) := do
  Host.report s!"Decoding {o.input} as {o.inputFormat.name}..."
  match ← Host.readFile o.input with
  | .error fault => return .error (.readFailed fault o.input)
  | .ok bytes => return decode bytes o.inputFormat o.topKey o.input

/-- Opens what the result is to be written to. -/
def openSink : (exportPath : Option String) → m (Except Error (Host.Sink m))
  | none => return .ok Host.output
  | some path => return (← Host.createFile path).mapError fun fault => .createFailed fault path

/-- Writes a rendered tree to where the options say. -/
def deliver (exportPath : Option String) (rendered : Bytes) : m (Except Error Unit) := do
  match ← openSink exportPath with
  | .error e => return .error e
  | .ok sink => return (← Host.write sink rendered).mapError .writeFailed

/-- Renders a tree and delivers it. -/
def save (o : Options) (t : Tree) : m (Except Error Unit) := do
  match render o.outputFormat t with
  | .error e => return .error e
  | .ok rendered =>
    match ← deliver o.exportPath rendered with
    | .error e => return .error e
    | .ok () =>
      if let some path := o.exportPath then
        Host.report s!"Wrote {o.outputFormat.name} to {path}"
      return .ok ()

/-- A whole session; gives the tree. -/
def run (o : Options) : m (Except Error Tree) := do
  match ← load o with
  | .error e => return .error e
  | .ok t => return (← save o t).map fun _ => t

/-- Exit status of a session that went well. -/
def success : UInt8 := 0

/-- Exit status of a session that failed. -/
def failure : UInt8 := 1

/-- Exit status of arguments that are not allowed. -/
def misuse : UInt8 := 2

/-- A session with given options; gives the exit status. -/
def runReporting (o : Options) : m UInt8 := do
  match ← load o with
  | .error e =>
    Host.report ("Unable to decode input: " ++ e.message)
    return failure
  | .ok t =>
    match ← save o t with
    | .error e =>
      Host.report ("Unable to export: " ++ e.message)
      return failure
    | .ok () => return success

/-- The whole program; gives the exit status. -/
def runArguments (arguments : List String) : m UInt8 := do
  match parse arguments with
  | .error .version =>
    let _ ← Host.write Host.output (Bytes.ofString versionText)
    return success
  | .error .help =>
    let _ ← Host.write Host.output (Bytes.ofString helpText)
    return success
  | .error .usage =>
    Host.report helpText
    return misuse
  | .ok given =>
    match Options.ofGiven given with
    | .error e =>
      Host.report e.message
      return failure
    | .ok o => runReporting o

end PlistCodec.Inspector
