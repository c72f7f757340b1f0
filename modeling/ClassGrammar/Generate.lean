import ClassGrammar.Host
import ClassGrammar.Transform

/-! From a document file to a grammar file. -/
namespace ClassGrammar

/-- Writes the grammar of the document at `input` to `output`. Nothing is written before the whole
text of the grammar is there. -/
def generate {m : Type → Type} [Monad m] (host : Host m) (s : Settings) (input output : String) :
    m (Except Fault Grammar) := do
  match ← host.read input with
  | .error f => return .error (.io f)
  | .ok bytes => match transformDocument s bytes with
    | .error f => return .error f
    | .ok g => match ← host.write output (Text.encodeUtf8 g.render) with
      | .error f => return .error (.io f)
      | .ok () => return .ok g

end ClassGrammar
