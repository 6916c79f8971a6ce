import PlistCodec.Inspector.CommandLine
import PlistCodec.Inspector.Error
import PlistCodec.Inspector.Format

/-!
# Options of the inspector

What the values on the command line ask for.  They are checked in a fixed order, so that of several
faults the first one in that order is reported.
-/

namespace PlistCodec.Inspector

/-- What the inspector is asked to do. -/
structure Options where
  /-- What the file to read holds. -/
  inputFormat : InputFormat
  /-- What the result is to be. -/
  outputFormat : OutputFormat
  /-- The file to read. -/
  input : String
  /-- The file to write; the standard output if there is none. -/
  exportPath : Option String
  /-- The root object of an archive to flatten in place of the default one. -/
  topKey : Option String
deriving DecidableEq, Repr

/-- The names of formats in a report. -/
def listing (names : List String) : String := ", ".intercalate names

/-- The format of the file to read, which has to be given. -/
def checkInputFormat : Option String → Except Error InputFormat
  | none => .error (.invalidOptions s!"Option --{OptionName.inputFormat.long} is required")
  | some text =>
    match InputFormat.ofName? text with
    | some format => .ok format
    | none =>
      let names := listing (InputFormat.all.map InputFormat.name)
      .error (.invalidOptions s!"{text} is not a valid input format! Must be one of <{names}>")

/-- The format of the result; XML if it is not given. -/
def checkOutputFormat : Option String → Except Error OutputFormat
  | none => .ok .xml
  | some text =>
    match OutputFormat.ofName? text with
    | some format => .ok format
    | none =>
      let names := listing (OutputFormat.all.map OutputFormat.name)
      .error (.invalidOptions s!"{text} is not a valid output format! Must be one of <{names}>")

/-- The file to read, which has to be given. -/
def checkInput : Option String → Except Error String
  | none => .error (.invalidOptions s!"Option --{OptionName.input.long} is required")
  | some path => .ok path

/-- The options that given values amount to. -/
def Options.ofGiven (given : Given) : Except Error Options := do
  let inputFormat ← checkInputFormat (given.lookup .inputFormat)
  let outputFormat ← checkOutputFormat (given.lookup .outputFormat)
  let input ← checkInput (given.lookup .input)
  let topKey := given.lookup .topKey
  if topKey.isSome && inputFormat != .archive then
    throw (.invalidOptions (s!"Option --{OptionName.topKey.long} is enabled, "
      ++ s!"which requires `--{OptionName.inputFormat.long} archive`"))
  return ⟨inputFormat, outputFormat, input, given.lookup .exportPath, topKey⟩

end PlistCodec.Inspector
