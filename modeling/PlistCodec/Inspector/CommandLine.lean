/-!
# The command line

`parse` reads the arguments of the inspector.  Each option takes one value, at most once; a value is
the argument behind the option or stands in the same argument, behind `=` or, for the one-letter
forms, behind the letter.  An argument that begins with a hyphen is no value unless it is the hyphen
alone, and nothing but options may be given.
-/

namespace PlistCodec.Inspector

/-- An option with a value. -/
inductive OptionName where
  /-- The format of the file to read. -/
  | inputFormat
  /-- The format of the result. -/
  | outputFormat
  /-- The file to read. -/
  | input
  /-- The file to write. -/
  | exportPath
  /-- The name of a root object of an archive. -/
  | topKey
deriving DecidableEq, Repr

/-- An option of the command line. -/
inductive Switch where
  /-- An option with a value. -/
  | valued (name : OptionName)
  /-- Asks for the version. -/
  | version
  /-- Asks for help. -/
  | help
deriving DecidableEq, Repr

/-- The long form of an option with a value. -/
def OptionName.long : OptionName → String
  | .inputFormat => "input-format"
  | .outputFormat => "output-format"
  | .input => "input"
  | .exportPath => "export-path"
  | .topKey => "top-key"

/-- The options by their long forms. -/
def longSwitches : List (String × Switch) :=
  [.inputFormat, .outputFormat, .input, .exportPath, .topKey].map
      (fun name => (OptionName.long name, .valued name))
    ++ [("version", .version), ("help", .help)]

/-- The options by their letters. -/
def shortSwitches : List (Char × Switch) :=
  [('f', .valued .inputFormat), ('o', .valued .outputFormat), ('i', .valued .input),
   ('e', .valued .exportPath), ('V', .version), ('h', .help)]

/-- The values that were given, the last one first. -/
abbrev Given := List (OptionName × String)

/-- How reading the arguments ends early. -/
inductive Stop where
  /-- The arguments are not allowed. -/
  | usage
  /-- The version was asked for. -/
  | version
  /-- Help was asked for. -/
  | help
deriving DecidableEq, Repr

/-- What one argument says. -/
inductive Argument where
  /-- The end of all options. -/
  | separator
  /-- An option, and the value in the same argument. -/
  | switch (switch : Switch) (value : Option String)
  /-- An option that does not exist, or no option at all. -/
  | unknown
deriving DecidableEq, Repr

/-- A long option. -/
def longArgument (body : List Char) : Argument :=
  let name := String.ofList (body.takeWhile (· != '='))
  match longSwitches.lookup name with
  | none => .unknown
  | some switch =>
    match body.dropWhile (· != '=') with
    | [] => .switch switch none
    | _ :: value => .switch switch (some (String.ofList value))

/-- An option by its letter.  Behind the letter of an option with a value stands the value. -/
def shortArgument (letter : Char) (rest : List Char) : Argument :=
  match shortSwitches.lookup letter with
  | none => .unknown
  | some (.valued name) =>
    match rest with
    | [] => .switch (.valued name) none
    | '=' :: value => .switch (.valued name) (some (String.ofList value))
    | value => .switch (.valued name) (some (String.ofList value))
  | some switch => .switch switch none

/-- What an argument says. -/
def classify (argument : String) : Argument :=
  match argument.toList with
  | ['-', '-'] => .separator
  | '-' :: '-' :: body => longArgument body
  | '-' :: letter :: rest => shortArgument letter rest
  | _ => .unknown

/-- Whether an argument may be the value of the option in front of it. -/
def isValue (argument : String) : Bool :=
  match argument.toList with
  | '-' :: _ :: _ => false
  | _ => true

/-- Adds a value that was not given before. -/
def give (given : Given) (name : OptionName) (value : String) : Except Stop Given :=
  if (given.lookup name).isSome then .error .usage else .ok ((name, value) :: given)

/-- Reads arguments, behind the values that were given so far. -/
def parseFrom (given : Given) : List String → Except Stop Given
  | [] => if given.isEmpty then .error .usage else .ok given
  | argument :: rest =>
    match classify argument with
    | .separator =>
      if rest.isEmpty && !given.isEmpty then .ok given else .error .usage
    | .unknown => .error .usage
    | .switch .version none => .error .version
    | .switch .help none => .error .help
    | .switch .version (some _) => .error .usage
    | .switch .help (some _) => .error .usage
    | .switch (.valued name) (some value) =>
      (give given name value).bind fun given => parseFrom given rest
    | .switch (.valued name) none =>
      match rest with
      | [] => .error .usage
      | value :: rest =>
        if isValue value then (give given name value).bind fun given => parseFrom given rest
        else .error .usage

/-- Reads all arguments. -/
def parse (arguments : List String) : Except Stop Given := parseFrom [] arguments

end PlistCodec.Inspector
