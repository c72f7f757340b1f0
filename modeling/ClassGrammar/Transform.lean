import ClassGrammar.Document
import ClassGrammar.Grammar.Link
import ClassGrammar.Grammar.Render
import ClassGrammar.Model.Build

/-! From top-level nodes, or from the bytes of a document, to a linked grammar. -/
namespace ClassGrammar

/-- The class model of the nodes is outlined, linked, and its primitive types are listed once.
The first fault ends the run. -/
def transform (s : Settings) (roots : List Node) : Except Fault Grammar := do
  let m ← Model.ofNodes (IdIndex.ofRoots roots) roots
  let o ← Outline.ofModel s m
  let g ← o.grammar.linked o.pending
  return g.dedupePrimitives

def DocumentFault.toFault (f : DocumentFault) : Fault := .xml f.message

/-- The grammar of the packaged elements of a document. -/
def transformDocument (s : Settings) (bytes : Bytes) : Except Fault Grammar := do
  (Document.check bytes).mapError DocumentFault.toFault
  let d ← (Document.read bytes).mapError DocumentFault.toFault
  let roots ← d.packagedElements
  transform s roots

end ClassGrammar
