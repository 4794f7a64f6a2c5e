import CBoundary.CommandLine
import CBoundary.ScanCodec

/-!
The program. It runs a command on the files of the disk, prints what the command has to say, and
ends with its exit status. Scans are kept as their codec writes them.
-/
namespace CBoundary

/-- The number and the description of an error of the operating system. -/
def errorNumber? : IO.Error → Option (UInt32 × String)
  | .alreadyExists _ n text | .interrupted _ n text | .noFileOrDirectory _ n text
  | .invalidArgument _ n text | .permissionDenied _ n text | .resourceExhausted _ n text
  | .inappropriateType _ n text | .noSuchThing _ n text => some (n, text)
  | .otherError n text | .resourceBusy n text | .resourceVanished n text
  | .unsupportedOperation n text | .hardwareFault n text | .unsatisfiedConstraints n text
  | .illegalOperation n text | .protocolError n text | .timeExpired n text => some (n, text)
  | .unexpectedEof | .userError _ => none

/-- The cause behind an error of the operating system. -/
def IoError.ofError (e : IO.Error) : IoError :=
  match errorNumber? e with
  | some (2, _) => .missing
  | some (17, _) => .occupied
  | some (20, _) => .notDirectory
  | some (21, _) => .isDirectory
  | some (36, _) => .nameTooLong
  | some (n, text) => .system text n.toNat
  | none => .system e.toString 0

/-- Runs an operation on the file that a path leads to. -/
def onFile {α : Type} (path : SourcePath) (operation : String → IO α) : IO (Except IoError α) := do
  if path.text.toList.contains '\x00' then return .error .zeroInPath
  else if path.text.isEmpty then return .error .missing
  else return (← (operation path.text).toBaseIO).mapError IoError.ofError

instance : FileAccess IO where
  read path := onFile path fun p => do
    let file ← IO.FS.Handle.mk p .read
    return (← file.readBinToEnd).data.toList
  entries path := onFile path fun p => do
    -- opening the directory tells why it cannot be read
    discard (IO.FS.Handle.mk p .read)
    let found ← (← IO.FS.realPath p).readDir
    found.toList.mapM fun entry => do
      return ⟨entry.fileName, (← entry.path.symlinkMetadata).type == .dir⟩
  modified path := onFile path fun p => do
    let time := (← (← IO.FS.realPath p).metadata).modified
    return ⟨time.sec * Timestamp.second + time.nsec.toNat⟩
  isDirectory path := do
    let found ← onFile path fun p => do return (← (← IO.FS.realPath p).metadata).type == .dir
    return found.toOption.getD false
  makeDirectory path := onFile path fun p => IO.FS.createDir p
  write path content := onFile path fun p => IO.FS.writeBinFile p ⟨content.toArray⟩
  removeTree path := onFile path fun p => IO.FS.removeDirAll p

/-- Prints a report. A reader that has gone away is no reason to complain. -/
def printReport (text : String) : IO Bool := do
  try
    let out ← IO.getStdout
    out.putStr text
    out.flush
    return true
  catch e =>
    if (errorNumber? e).map Prod.fst != some 32 then
      IO.eprint (Command.complaint s!"cannot write report: {(IoError.ofError e).message}")
    return false

end CBoundary

/-- Runs the command that the arguments name. -/
def main (arguments : List String) : IO UInt32 := do
  let outcome ← (CBoundary.Command.ofArguments arguments).run
    CBoundary.SourceScan.codec.storedForm
  IO.eprint outcome.errorOutput
  let printed ← CBoundary.printReport outcome.output
  return if printed then outcome.status.code else CBoundary.ExitStatus.fatal.code
