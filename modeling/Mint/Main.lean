import Mint.CommandLine

/-!
# The executable

Fetches what the command line asks for, and writes the report.
-/

namespace Mint

/-- How deep method calls may nest in the executable. -/
def callDepth : Nat := 1000000000

/-- Opens a path of the file system. What goes wrong on the way to the file carries its
name; a directory opens and then cannot be read, and that carries none. -/
def openPath (path : String) : IO (Except FileFault Entry) := do
  try
    let bytes ← IO.FS.readBinFile path
    return .ok (.file (Source.ofByteArray bytes))
  catch
    | .noFileOrDirectory .. => return .error .notFound
    | .inappropriateType (some _) _ _ => return .error .notADirectory
    | .inappropriateType none _ _ => return .ok .directory
    | .invalidArgument (some _) _ _ => return .error .nameTooLong
    | e => throw e

/-- Everything that a stream still holds, after `before`. -/
partial def readAll (stream : IO.FS.Stream) (before : ByteArray) : IO ByteArray := do
  let bytes ← stream.read 65536
  if bytes.isEmpty then
    return before
  else
    readAll stream (before ++ bytes)

end Mint

def main (args : List String) : IO UInt32 := do
  let invocation := Mint.Invocation.ofArgs args
  let stdin ← match invocation with
    | .standardInput => do
      let bytes ← Mint.readAll (← IO.getStdin) .empty
      pure (Mint.Source.ofByteArray bytes)
    | _ => pure ⟨[]⟩
  let found ← match invocation with
    | .file path => Mint.openPath path
    | _ => pure (.error .notFound)
  match invocation.report stdin (fun _ => found) Mint.callDepth with
  | some report =>
    (← IO.getStdout).write report.stdout
    (← IO.getStderr).putStr report.stderr
    return report.status.toUInt32
  | none =>
    (← IO.getStderr).putStr "error: method calls nest too deep\n"
    return 1
