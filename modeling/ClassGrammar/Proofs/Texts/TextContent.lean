import ClassGrammar.Grammar.Render
import ClassGrammar.Proofs.Linking.LinkedOutcome
import ClassGrammar.Proofs.General.Spelling

/-! What the text of a grammar shows of it. The target of a reference leaves no trace in the text,
and a reference to a primitive type looks like the type itself. -/
namespace ClassGrammar

namespace SimpleType

/-- Whether a type is referred to by a name that no primitive type has. -/
def WellNamed : SimpleType → Prop
  | primitive _ => True
  | named ref => Text.IsName ref.name ∧ Primitive.ofName? ref.name = none

instance decidableWellNamed (t : SimpleType) : Decidable t.WellNamed := by
  cases t <;> unfold WellNamed <;> infer_instance

/-- The type without its target. -/
def content : SimpleType → SimpleType
  | primitive p => primitive p
  | named ref => named ref.unlinked

end SimpleType

namespace TypeExpr

def WellNamed (t : TypeExpr) : Prop := t.innermost.WellNamed

instance decidableWellNamed (t : TypeExpr) : Decidable t.WellNamed :=
  inferInstanceAs (Decidable t.innermost.WellNamed)

/-- The expression without its target, and without a reference around a primitive type. -/
def content : TypeExpr → TypeExpr
  | simple t => simple t.content
  | reference (.primitive p) => simple (.primitive p)
  | reference (.named ref) => reference (.named ref.unlinked)
  | array e => array e.content

@[simp] theorem source_content (t : TypeExpr) : t.content.source = t.source := by
  induction t with
  | simple s => cases s <;> rfl
  | reference s => cases s <;> rfl
  | array e ih => exact congrArg (· ++ "[]") ih

end TypeExpr

namespace Attribute

structure WellNamed (a : Attribute) : Prop where
  name : Text.IsName a.name
  type : a.type.WellNamed

instance decidableWellNamed (a : Attribute) : Decidable a.WellNamed :=
  decidable_of_iff (Text.IsName a.name ∧ a.type.WellNamed)
    ⟨fun h => ⟨h.1, h.2⟩, fun h => ⟨h.name, h.type⟩⟩

def content (a : Attribute) : Attribute := { a with type := a.type.content }

@[simp] theorem line_content (a : Attribute) : a.content.line = a.line := by
  rw [line, show a.content.type = a.type.content from rfl, TypeExpr.source_content]
  rfl

end Attribute

namespace Interface

structure WellNamed (i : Interface) : Prop where
  name : Text.IsName i.name
  superTypes : ∀ ref ∈ i.superTypes, Text.IsName ref.name
  attributes : ∀ a ∈ i.attributes, a.WellNamed

instance decidableWellNamed (i : Interface) : Decidable i.WellNamed :=
  decidable_of_iff (Text.IsName i.name ∧ (∀ ref ∈ i.superTypes, Text.IsName ref.name) ∧
      ∀ a ∈ i.attributes, a.WellNamed)
    ⟨fun h => ⟨h.1, h.2.1, h.2.2⟩, fun h => ⟨h.name, h.superTypes, h.attributes⟩⟩

def content (i : Interface) : Interface where
  name := i.name
  superTypes := i.superTypes.map .unlinked
  attributes := i.attributes.map .content

@[simp] theorem lines_content (i : Interface) : i.content.lines = i.lines := by
  have hheader : i.content.header = i.header := by
    unfold header content
    cases i.superTypes <;> simp [TypeRef.unlinked, Function.comp_def]
  unfold lines
  rw [hheader]
  unfold content
  cases i.attributes <;> simp [Function.comp_def]

end Interface

structure Union.WellNamed (u : Union) : Prop where
  name : Text.IsName u.name
  literals : ∀ literal ∈ u.literals, Text.IsName literal

instance Union.decidableWellNamed (u : Union) : Decidable u.WellNamed :=
  decidable_of_iff (Text.IsName u.name ∧ ∀ literal ∈ u.literals, Text.IsName literal)
    ⟨fun h => ⟨h.1, h.2⟩, fun h => ⟨h.name, h.literals⟩⟩

namespace Grammar

/-- Whether all names of a grammar are well formed, and no referenced type has the name of a
primitive type. -/
structure WellNamed (g : Grammar) : Prop where
  name : Text.IsName g.name
  entryRule : Text.IsName g.entryRule
  interfaces : ∀ i ∈ g.interfaces, i.WellNamed
  unions : ∀ u ∈ g.unions, u.WellNamed

instance decidableWellNamed (g : Grammar) : Decidable g.WellNamed :=
  decidable_of_iff (Text.IsName g.name ∧ Text.IsName g.entryRule ∧
      (∀ i ∈ g.interfaces, i.WellNamed) ∧ ∀ u ∈ g.unions, u.WellNamed)
    ⟨fun h => ⟨h.1, h.2.1, h.2.2.1, h.2.2.2⟩,
      fun h => ⟨h.name, h.entryRule, h.interfaces, h.unions⟩⟩

/-- The grammar without targets and without references to primitive types. -/
def content (g : Grammar) : Grammar := { g with interfaces := g.interfaces.map .content }

@[simp] theorem render_content (g : Grammar) : g.content.render = g.render := by
  have hlines : g.content.lines = g.lines := by
    simp [lines, content, List.flatMap_map]
  rw [render, render, hlines]

end Grammar
end ClassGrammar
