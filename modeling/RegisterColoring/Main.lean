import RegisterColoring.Program

/-! The command line program. -/
namespace RegisterColoring.Main

def reason : IO.Error → String
  | .noFileOrDirectory _ _ _ => "No such file or directory (os error 2)"
  | .inappropriateType _ code _ => "Is a directory (os error " ++ code.toNat.repr ++ ")"
  | .permissionDenied _ code _ => "Permission denied (os error " ++ code.toNat.repr ++ ")"
  | e => e.toString

def readFile (file : String) : IO (Except String String) := do
  match ← (IO.FS.readFile file).toBaseIO with
  | .ok text => return .ok text
  | .error e => return .error (reason e)

end RegisterColoring.Main

open RegisterColoring in
def main (args : List String) : IO UInt32 := do
  let outcome ← Program.run Main.readFile args
  for e in outcome.log do
    IO.eprintln ("[" ++ e.severity.word ++ "] " ++ e.text)
  IO.print outcome.stdout
  IO.eprint outcome.stderr
  return outcome.status
