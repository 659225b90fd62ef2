import Arbor.Command.Run
import Arbor.SExpr.Compact

/-!
The command line program: it looks at the file that the arguments name, runs the command, writes
what the command says, and ends as it says.
-/

namespace Arbor.Command

def readState (path : AbsolutePath) : IO FileState := do
  try
    let bytes ← IO.FS.readBinFile path.text
    return .file bytes.toList
  catch
    | .noFileOrDirectory .. => return .missing
    | .inappropriateType .. | .illegalOperation .. => return .directory
    | .invalidArgument .. => return .nameTooLong
    | e => return .unreadable (toString e)

def finish (outcome : Outcome) : IO UInt32 := do
  IO.print outcome.stdout
  IO.eprint outcome.stderr
  match outcome.ending with
  | .returned code => return code.toUInt32
  | .refused => return 2
  | .helped =>
    IO.print helpText
    return 0
  | .crashed error text =>
    IO.eprintln s!"{error}: {text}"
    return 1

def program (arguments : List String) : IO UInt32 := do
  let directory := AbsolutePath.root.resolve (← IO.currentDir).toString
  let environment : Environment := ⟨← IO.getEnv "NO_COLOR", ← IO.getEnv "ESTREE_WALK_COLOR"⟩
  let state ← match target? directory arguments with
    | some path => readState path
    | none => pure .missing
  finish (run SExpr.oneLine directory (fun _ => state) environment arguments)

end Arbor.Command

def main (arguments : List String) : IO UInt32 :=
  Arbor.Command.program arguments
