import TreeAsm.CommandLine

/-!
# The program

The command line on the files and the environment of the machine it runs on.
-/

namespace TreeAsm

/-- The reason why a file was refused. -/
def refusal (path : String) (e : IO.Error) : Failure :=
  let reason := match e with
    | .noFileOrDirectory .. => "no such file or directory"
    | .permissionDenied .. => "permission denied"
    | .inappropriateType .. => "is a directory"
    | e => toString e
  .report [] (.fileRefused s!"open {path}: {reason}")

instance : Host IO where
  readFile path := do
    try return .ok (← IO.FS.readFile path)
    catch e => return .error (refusal path e)
  writeFile path content := do
    try return .ok (← IO.FS.writeFile path content)
    catch e => return .error (refusal path e)
  print text := do (← IO.getStdout).putStr text
  getVariable name := IO.getEnv name

end TreeAsm

/-- Runs the command line; a failure is told on the error stream. -/
def main (args : List String) : IO UInt32 := do
  let r ← (TreeAsm.CommandLine.run args : TreeAsm.Hosted IO Unit).run
  if let .error e := r then
    IO.eprintln s!"error: {e.message}"
  return TreeAsm.CommandLine.status r
