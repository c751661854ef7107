import Infill.Command.Run

/-!
The command line program.
-/
namespace Infill

/-- Access to the files of the system. A file that must not be read is one all
the same. -/
def systemFiles : Files IO where
  read? path := do
    try
      return some (← IO.FS.readFile path)
    catch _ => return none
  isFile path := do
    try
      IO.FS.withFile path .read fun handle => discard (handle.read 1)
      return true
    catch failure =>
      match failure with
      | .permissionDenied .. => return true
      | _ => return false
  write path content := do
    try
      IO.FS.writeFile path content
      return true
    catch _ => return false

end Infill

def main (args : List String) : IO UInt32 := do
  match ← (Infill.Command.run Infill.systemFiles args).run with
  | .ok text =>
    IO.print text
    return 0
  | .error failure =>
    IO.eprintln ("error: " ++ failure.message)
    return failure.code.toUInt32
