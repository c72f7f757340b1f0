import ClassGrammar.CommandLine
import ClassGrammar.Settings.Readers

/-! The program on the files of the machine. -/
namespace ClassGrammar.Main

/-- The cause of a failed operation, by the number that the system gives it. -/
def causeOf : IO.Error → IoFault
  | .noFileOrDirectory .. => .notFound
  | .inappropriateType _ 20 _ => .notDirectory
  | .inappropriateType _ 21 _ => .isDirectory
  | e => .other (toString e)

def attempt {α : Type} (act : IO α) : IO (Except IoFault α) := do
  match ← act.toBaseIO with
  | .ok a => return .ok a
  | .error e => return .error (causeOf e)

/-- Whether something is at a path is told by the attempt to read it. -/
def host : Host IO where
  isThere path := do
    match ← attempt (IO.FS.readBinFile path) with
    | .error .notFound => return false
    | .error .notDirectory => return false
    | _ => return true
  read path := attempt do return (← IO.FS.readBinFile path).data.toList
  write path bytes := attempt (IO.FS.writeBinFile path ⟨bytes.toArray⟩)

end ClassGrammar.Main

open ClassGrammar in
def main (args : List String) : IO UInt32 := do
  let exit ← CommandLine.run Main.host Settings.Readers.plain "" args
  IO.print exit.stdout
  IO.eprint exit.stderr
  return UInt32.ofNat exit.code
