import PlistCodec.Inspector.Session

/-!
# The program

The inspector on the files and streams of the system.
-/

namespace PlistCodec.Inspector

/-- A failure that has a number, in the words of the system. -/
def numbered (code : UInt32) (details : String) : FileFault :=
  .other s!"{details} (os error {code})"

/-- What the system says about a failure. -/
def faultOfSystem : IO.Error → FileFault
  | .noFileOrDirectory .. => .notFound
  | .inappropriateType _ code details => numbered code details
  | .permissionDenied _ code details => numbered code details
  | .invalidArgument _ code details => numbered code details
  | .resourceExhausted _ code details => numbered code details
  | .alreadyExists _ code details => numbered code details
  | .resourceBusy code details => numbered code details
  | .unsupportedOperation code details => numbered code details
  | .hardwareFault code details => numbered code details
  | .otherError code details => numbered code details
  | e => .other (toString e)

/-- Makes a change to the system. -/
def attemptSystem {α : Type} (action : IO α) : IO (Except FileFault α) := do
  try return .ok (← action)
  catch e => return .error (faultOfSystem e)

/-- Opens a file for writing, from its beginning. -/
def createStream (path : String) : IO IO.FS.Stream := do
  return IO.FS.Stream.ofHandle (← IO.FS.Handle.mk path .write)

instance : Host IO where
  Sink := IO IO.FS.Stream
  readFile path := attemptSystem do
    let file ← IO.FS.Handle.mk path .read
    return (← file.readBinToEnd).data.toList
  createFile path := attemptSystem do
    return pure (← createStream path)
  output := IO.getStdout
  write sink bytes := attemptSystem do
    let stream ← sink
    stream.write bytes.toByteArray
    stream.flush
  report line := IO.eprintln line

end PlistCodec.Inspector

/-- Runs the inspector on the arguments of the command line. -/
def main (arguments : List String) : IO UInt32 := do
  return (← PlistCodec.Inspector.runArguments arguments).toUInt32
