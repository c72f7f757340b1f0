import ClassGrammar.IdIndex
import ClassGrammar.Model.Basic
import ClassGrammar.Text.Blank
import ClassGrammar.Text.Lowercase
import ClassGrammar.Text.Number

/-! A class model while it is read. An element is added the first time its node is met, as a
top-level element, as the type of a property or as a general class. The members of a class are
read later from a queue, so classes may refer to each other in any way. -/
namespace ClassGrammar

/-- The metaclasses whose elements can be the type of a property. -/
inductive TypeKind where
  | classType
  | interfaceType
  | dataType
  | primitiveType
  | enumeration
  deriving DecidableEq, Repr

namespace TypeKind

def ofText? : String → Option TypeKind
  | "uml:Class" => some classType
  | "uml:Interface" => some interfaceType
  | "uml:DataType" => some dataType
  | "uml:PrimitiveType" => some primitiveType
  | "uml:Enumeration" => some enumeration
  | _ => none

/-- The kind that a node states, if it is one of these. -/
def ofNode? (node : Node) : Option TypeKind := node.kind?.bind ofText?

def isClass : TypeKind → Bool
  | classType => true
  | interfaceType => true
  | _ => false

def noun : TypeKind → String
  | classType => "class"
  | interfaceType => "class"
  | dataType => "data type"
  | primitiveType => "primitive type"
  | enumeration => "enumeration"

/-- An element of the kind before its members are read. Only enumerations have literals. -/
def form (literals : List Literal) : TypeKind → Form
  | classType => .classifier false [] []
  | interfaceType => .classifier true [] []
  | dataType => .dataType
  | primitiveType => .primitiveType
  | enumeration => .enumeration literals

end TypeKind

def requiredName (node : Node) (noun : String) : Except Fault String :=
  match node.name? with
  | some name => .ok name
  | none => .error (.missingAttribute s!"name of {noun} {node.describe}")

def readLiteral (node : Node) : Except Fault Literal := do
  let name ← requiredName node "enumeration literal"
  return ⟨node.id?, name, .ofText (node.attr? "visibility")⟩

/-- The literals of an enumeration; nodes of other kinds have none. -/
def readLiterals (node : Node) : TypeKind → Except Fault (List Literal)
  | .enumeration => (node.children "ownedLiteral").mapM readLiteral
  | _ => .ok []

/-- The element that the node of a type declares, before its members are read. -/
def readElement (kind : TypeKind) (node : Node) : Except Fault Element := do
  let literals ← readLiterals node kind
  let name ← requiredName node kind.noun
  return ⟨node.id?, name, .ofText (node.attr? "visibility"), kind.form literals⟩

/-- The lower bound: one without `lowerValue`, zero when that has no value. -/
def readLower (node : Node) (name : String) : Except Fault Nat :=
  match node.child? "lowerValue" with
  | none => .ok 1
  | some bound => match bound.attr? "value" with
    | none => .ok 0
    | some value => match Text.word? (Text.trim value) with
      | some n => .ok n
      | none => .error (.invalidMultiplicity name value)

/-- The upper bound: one without `upperValue` or its value. -/
def readUpper (node : Node) (name : String) : Except Fault Nat :=
  match (node.child? "upperValue").bind (·.attr? "value") with
  | none => .ok 1
  | some value =>
      let value := Text.trim value
      if value = "*" ∨ value = "-1" then .ok Multiplicity.many
      else match Text.word? value with
        | some n => .ok n
        | none => .error (.invalidMultiplicity name value)

def readMultiplicity (node : Node) (name : String) : Except Fault Multiplicity := do
  let lower ← readLower node name
  let upper ← readUpper node name
  return .ofBounds lower upper

/-- The name of a library type, which is what follows the last number sign of its reference. -/
def libraryName (href : String) : String :=
  String.ofList (href.toList.reverse.takeWhile (· ≠ '#')).reverse

structure Draft where
  model : Model := {}
  /-- Classes whose members are still to be read, with their nodes. -/
  queue : List (Handle × Node) := []

namespace Draft

/-- The element of the type that a node declares, added unless its identifier is known. -/
def typeFor (d : Draft) (kind : TypeKind) (node : Node) : Except Fault (Draft × Handle) :=
  match node.id?.bind d.model.lookup with
  | some h => .ok (d, h)
  | none => do
      let e ← readElement kind node
      let queue := if kind.isClass then d.queue ++ [(d.model.size, node)] else d.queue
      return (⟨d.model.add e, queue⟩, d.model.size)

/-- The element of a type outside the document, added unless its reference is known. -/
def libraryType (d : Draft) (href : String) (kind : Option String) (owner : Node) :
    Except Fault (Draft × Handle) :=
  match d.model.lookup href with
  | some h => .ok (d, h)
  | none => match kind.bind TypeKind.ofText? with
    | some k =>
        let e : Element := ⟨none, libraryName href, .publicAccess, k.form []⟩
        .ok ({ d with model := (d.model.add e).register href d.model.size }, d.model.size)
    | none =>
        .error (.unrecognizedKind kind s!"library type '{href}' of property {owner.describe}")

/-- The type of a property, given by an identifier or by the reference of a library type. -/
def propertyType (ix : IdIndex) (d : Draft) (node : Node) : Except Fault (Draft × Handle) :=
  match node.attr? "type" with
  | some id => do
      let target ← ix.resolve id s!"type of property {node.describe}"
      match TypeKind.ofNode? target with
      | some kind => d.typeFor kind target
      | none => .error (.unrecognizedKind target.kind?
          s!"type {target.describe} of property {node.describe}")
  | none => match node.child? "type" with
    | none => .error (.missingAttribute s!"type of property {node.describe}")
    | some ref => match ref.attr? "href" with
      | none => .error (.missingAttribute s!"href of type of property {node.describe}")
      | some href => d.libraryType href ref.kind? node

/-- Reads a property. Without a name it is named after its type. -/
def property (ix : IdIndex) (d : Draft) (node : Node) : Except Fault (Draft × Property) := do
  let (d, type) ← propertyType ix d node
  let name := node.name?.getD (Text.lowerFirst (d.model.element type).name)
  let multiplicity ← readMultiplicity node name
  return (d, {
    id := node.id?
    name := name
    visibility := .ofText (node.attr? "visibility")
    multiplicity := multiplicity
    aggregation := .ofText (node.attr? "aggregation")
    type := type
    association := none })

def properties (ix : IdIndex) (d : Draft) : List Node → Except Fault (Draft × List Property)
  | [] => .ok (d, [])
  | node :: rest => do
      let (d, p) ← property ix d node
      let (d, ps) ← properties ix d rest
      return (d, p :: ps)

/-- Reads a generalization of the class that `specific` declares. -/
def generalization (ix : IdIndex) (specific : Node) (d : Draft) (node : Node) :
    Except Fault (Draft × Generalization) :=
  match node.attr? "general" with
  | none => .error (.missingAttribute s!"general of generalization in {specific.describe}")
  | some id => do
      let general ← ix.resolve id s!"generalization target of {specific.describe}"
      match (TypeKind.ofNode? general).filter TypeKind.isClass with
      | some kind =>
          let (d, target) ← d.typeFor kind general
          return (d, ⟨node.id?, [target]⟩)
      | none => .error (.unrecognizedKind general.kind?
          s!"generalization target {general.describe} of {specific.describe}")

def generalizations (ix : IdIndex) (specific : Node) (d : Draft) :
    List Node → Except Fault (Draft × List Generalization)
  | [] => .ok (d, [])
  | node :: rest => do
      let (d, g) ← generalization ix specific d node
      let (d, gs) ← generalizations ix specific d rest
      return (d, g :: gs)

/-- Reads the members of the class at `h` from its node. -/
def fillMembers (ix : IdIndex) (d : Draft) (h : Handle) (node : Node) : Except Fault Draft := do
  let (d, attributes) ← properties ix d (node.children "ownedAttribute")
  let (d, generals) ← generalizations ix node d (node.children "generalization")
  return { d with model := d.model.setMembers h attributes generals }

/-- The element of an association, added unless its identifier is known. -/
def associationFor (ix : IdIndex) (d : Draft) (node : Node) : Except Fault (Draft × Handle) :=
  match node.id?.bind d.model.lookup with
  | some h => .ok (d, h)
  | none => match node.children "ownedEnd" with
    | [a, b] => do
        let (d, first) ← property ix d a
        let (d, second) ← property ix d b
        let h := d.model.size
        let e : Element := {
          id := node.id?
          name := node.name?.getD ""
          visibility := .ofText (node.attr? "visibility")
          form := .association { first with association := some h }
            { second with association := some h }
            ((node.attr? "navigableOwnedEnd").elim [] Text.words) }
        return ({ d with model := d.model.add e }, h)
    | ends => .error (.missingElement
        s!"two ownedEnd children on association {node.describe} (found {ends.length})")

/-- The element of a top-level node at a position. -/
def rootFor (ix : IdIndex) (d : Draft) (position : Nat) (node : Node) :
    Except Fault (Draft × Handle) :=
  match TypeKind.ofNode? node with
  | some kind => d.typeFor kind node
  | none =>
      if node.kind? = some "uml:Association" then associationFor ix d node
      else .error (.unrecognizedKind node.kind?
        s!"top-level element #{position} {node.describe}")

end Draft
end ClassGrammar
