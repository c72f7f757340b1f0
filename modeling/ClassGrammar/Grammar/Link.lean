import ClassGrammar.Grammar.Outline

/-! Linking: each reference of an outline gets the declaration that has its name. The type of an
attribute is an interface or, if none has the name, a union; a super type is an interface. The
first reference without a declaration stops the pass and leaves those before it linked. -/
namespace ClassGrammar

def Place.noun : Place → String
  | .attribute _ => "attribute"
  | .superType _ => "super type"

def Place.index : Place → Nat
  | .attribute k => k
  | .superType k => k

namespace Grammar

/-- The reference that stands in a place of an interface. -/
def refAt? (i : Interface) : Place → Option TypeRef
  | .attribute k => i.attributes[k]?.bind (·.type.typeRef?)
  | .superType k => i.superTypes[k]?

/-- The declaration that a name stands for in a place. -/
def resolve? (g : Grammar) (name : String) : Place → Option Target
  | .attribute _ =>
      ((g.findInterface? name).map Target.interface).or ((g.findUnion? name).map Target.union)
  | .superType _ => (g.findInterface? name).map Target.interface

/-- Where a reference without a declaration stands, for the fault message. -/
def site (i : Interface) : Place → String
  | .attribute k =>
      let name := (i.attributes[k]?.map (·.name)).getD ""
      s!"type of attribute '{name}' of interface '{i.name}'"
  | .superType _ => s!"super type of interface '{i.name}'"

/-- The interface with a target for the reference in a place. -/
def setTarget (t : Target) (i : Interface) : Place → Interface
  | .attribute k => { i with attributes := i.attributes.modify k fun a =>
      match a.type.typeRef? with
      | some ref => { a with type := a.type.withInnermost (.named { ref with target := some t }) }
      | none => a }
  | .superType k =>
      { i with superTypes := i.superTypes.modify k fun ref => { ref with target := some t } }

/-- Links one reference. -/
def linkSlot (g : Grammar) (slot : Slot) : Except Fault Grammar :=
  let i := g.interface slot.owner
  match refAt? i slot.place with
  | none => .error (.missingElement
      s!"named {slot.place.noun} #{slot.place.index} of interface {slot.owner}")
  | some ref => match g.resolve? ref.name slot.place with
    | none => .error (.danglingReference ref.name (site i slot.place))
    | some t => .ok { g with
        interfaces := g.interfaces.modify slot.owner (setTarget t · slot.place) }

/-- Links the references in order. The second part is the fault that stopped the pass, the first
part the grammar reached by then. -/
def link (g : Grammar) : List Slot → Grammar × Option Fault
  | [] => (g, none)
  | slot :: rest => match g.linkSlot slot with
    | .ok g' => g'.link rest
    | .error f => (g, some f)

/-- The linked grammar, if every reference has a declaration. -/
def linked (g : Grammar) (slots : List Slot) : Except Fault Grammar :=
  match g.link slots with
  | (g', none) => .ok g'
  | (_, some f) => .error f

end Grammar
end ClassGrammar
