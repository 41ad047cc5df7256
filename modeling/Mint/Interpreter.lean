import Mint.Eval
import Mint.Folder
import Mint.Program

/-!
# Running a program

`Source.interpret` reads a program and runs it; `Folder.interpret` does so for a file of
a folder. Nothing runs unless the whole source can be read as a program.
-/

namespace Mint

namespace Program

/-- Runs a program in a scope of its own and returns the variables it leaves. The output
is flushed once, when everything else has succeeded. -/
def run (program : Program) (fuel : Nat) : Action Scope := do
  let d := Dispatch.within program.classes fuel
  let (_, globals) ← Exec.inScope ∅ (program.body.exec program.classes d)
  Action.flush
  return globals

end Program

/-- Why no program ran to its end. -/
inductive Failure where
  | unopened (path : String) (fault : FileFault)
  | unparsed (error : ParseError)
  | stopped (error : EvalError)
deriving DecidableEq

/-- How the failure is described to the user. -/
def Failure.message : Failure → String
  | unopened path fault => "cannot read " ++ path ++ ": " ++ fault.message
  | unparsed error => error.message
  | stopped error => "runtime error: " ++ error.message

/-- What a program leaves: its variables, and the classes that its values refer to. -/
structure Result where
  globals : Scope
  classes : ClassTable
deriving DecidableEq

/-- Reads a program and runs it, with method calls nesting at most `fuel` deep. -/
def Source.interpret (source : Source) (fuel : Nat) :
    Run Failure Machine Result := fun machine =>
  match Program.parse source with
  | .starved => .starved
  | .failed e => .failed (.unparsed e, machine)
  | .done program =>
    match program.run fuel machine with
    | .starved => .starved
    | .failed (e, machine) => .failed (.stopped e, machine)
    | .done (globals, machine) => .done (⟨globals, program.classes⟩, machine)

/-- Reads and runs what was found at a path. A directory can be opened, but its first
line cannot be read. -/
def Entry.interpret (fuel : Nat) : Entry → Run Failure Machine Result
  | file source => source.interpret fuel
  | directory => Run.fail (.unparsed (.lexical ⟨1, .unreadable .isDirectory⟩))

namespace Folder

/-- Reads and runs the program in the file at `path`. -/
def interpret (folder : Folder) (path : String) (fuel : Nat) :
    Run Failure Machine Result :=
  match folder.entry path with
  | .ok found => found.interpret fuel
  | .error fault => Run.fail (.unopened path fault)

end Folder

end Mint
