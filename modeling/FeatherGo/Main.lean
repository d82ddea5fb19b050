import FeatherGo.Command.Execute

/-!
# The command

Reads the file that the command line names, carries the command out, and writes its two outputs.
-/

namespace FeatherGo.Command

/-- More than any checked program needs for its method sets; runs end after as many steps. -/
def fuelOfCommands : Nat := 1000000000

/-- The wording of a failure to read a file. -/
def readFault : IO.Error → String
  | .noFileOrDirectory .. => "No such file or directory (os error 2)"
  | .permissionDenied .. => "Permission denied (os error 13)"
  | .inappropriateType .. => "Is a directory (os error 21)"
  | e => toString e

/-- Read a file. -/
def readContent (file : String) : IO (Except String String) := do
  try
    return .ok (← IO.FS.readFile file)
  catch e =>
    return .error (readFault e)

/-- Carry out a command line and return the exit code. -/
def carryOut (args : List String) : IO UInt32 := do
  let request := Request.ofArguments args
  let content ←
    match request.file? with
    | some file => readContent file
    | none => pure (.ok "")
  let effect := request.execute fuelOfCommands content
  (← IO.getStdout).putStr effect.output
  (← IO.getStderr).putStr effect.notice.render
  return effect.exit.toUInt32

end FeatherGo.Command

def main (args : List String) : IO UInt32 := FeatherGo.Command.carryOut args
