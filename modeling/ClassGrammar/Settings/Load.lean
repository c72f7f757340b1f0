import ClassGrammar.Host
import ClassGrammar.Path
import ClassGrammar.Settings.Basic
import ClassGrammar.Text.Lowercase

/-! Settings from a file. The extension of its name decides the format. -/
namespace ClassGrammar.Settings

/-- The readers of settings, one for each format. A reader that fails says why. -/
structure Readers where
  yaml : String → Except String Settings
  json : String → Except String Settings

namespace Readers

def ofYaml (readers : Readers) (s : String) : Except Fault Settings :=
  (readers.yaml s).mapError fun e => .settings s!"YAML: {e}"

def ofJson (readers : Readers) (s : String) : Except Fault Settings :=
  (readers.json s).mapError fun e => .settings s!"JSON: {e}"

/-- The settings in the text of the file at a path. -/
def ofText (readers : Readers) (path s : String) : Except Fault Settings :=
  match (Path.extension? path).map Text.lowerAscii with
  | some "yaml" => readers.ofYaml s
  | some "yml" => readers.ofYaml s
  | some "json" => readers.ofJson s
  | _ => .error (.settings
      s!"unsupported configuration file '{path}' (expected .yaml, .yml or .json)")

end Readers

/-- The file has to be readable text before its extension counts. -/
def load {m : Type → Type} [Monad m] (host : Host m) (readers : Readers) (path : String) :
    m (Except Fault Settings) := do
  match ← host.readText path with
  | .error f => return .error (.io f)
  | .ok s => return readers.ofText path s

end ClassGrammar.Settings
