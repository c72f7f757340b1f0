import ClassGrammar.Settings.Json
import ClassGrammar.Settings.Load
import ClassGrammar.Settings.Yaml.Tree

/-! Readers for settings in JSON and in plain YAML. -/
namespace ClassGrammar.Settings

/-- Readers for JSON, and for one YAML document of collections with plain, quoted and literal
scalars. Other YAML is refused: folded scalars, anchors, aliases, tags and directives. A run is
generic in its readers, so nothing about runs depends on this choice. -/
def Readers.plain : Readers where
  yaml s := match ofYaml? s with
    | some settings => .ok settings
    | none => .error "no settings can be read from the text"
  json s := match ofJson? s with
    | some settings => .ok settings
    | none => .error "no settings can be read from the text"

end ClassGrammar.Settings
