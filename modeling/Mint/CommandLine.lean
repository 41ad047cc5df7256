import Mint.Interpreter

/-!
# The command line

`mint FILE` runs a file and `mint -` runs what comes in on standard input.
`Invocation.ofArgs` reads the arguments; `Invocation.report` says what is written and
with which status the program ends.
-/

namespace Mint

/-- What the arguments ask for. -/
inductive Invocation where
  | help
  /-- No arguments. -/
  | nothing
  /-- An argument too many. -/
  | surplus (arg : String)
  | standardInput
  | file (path : String)
deriving DecidableEq

/-- What is asked for. A request for help wins over everything that follows it. -/
def Invocation.ofArgs : List String → Invocation
  | [] => .nothing
  | target :: rest =>
    if target = "-h" ∨ target = "--help" then .help
    else
      match rest with
      | arg :: _ => .surplus arg
      | [] => if target = "-" then .standardInput else .file target

/-- What a run of the command leaves behind. -/
structure Report where
  status : Nat
  stdout : ByteArray
  stderr : String
deriving DecidableEq

/-- How the command is used. -/
def usage : String :=
  "Usage: mint <file.mint>\n       mint -          read the program from stdin\n\n" ++
  "Set RUST_LOG (e.g. RUST_LOG=mint_eval=debug) for diagnostics.\n"

/-- The report on a program that was to be run. What was printed before a failure is
kept. -/
def Report.ofRun (run : Run Failure Machine Result) : Option Report :=
  match run (Machine.start Sink.unlimited) with
  | .starved => none
  | .done (_, machine) => some ⟨0, machine.sink.written, ""⟩
  | .failed (failure, machine) =>
    some ⟨1, machine.sink.written, "error: " ++ failure.message ++ "\n"⟩

/-- Carries out a request. `stdin` is what comes in on standard input and `files` opens
a path. There is no report if method calls nest deeper than `fuel`. -/
def Invocation.report (stdin : Source) (files : String → Except FileFault Entry)
    (fuel : Nat) :
    Invocation → Option Report
  | help => some ⟨0, .empty, usage⟩
  | nothing => some ⟨1, .empty, usage⟩
  | surplus arg =>
    some ⟨1, .empty, "error: unexpected argument '" ++ arg ++ "'\n" ++ usage⟩
  | standardInput => Report.ofRun (stdin.interpret fuel)
  | file path =>
    match files path with
    | .ok found => Report.ofRun (found.interpret fuel)
    | .error fault => Report.ofRun (Run.fail (.unopened path fault))

end Mint
