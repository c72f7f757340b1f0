import ClassGrammar.Fault
import ClassGrammar.Grammar.Basic
import ClassGrammar.Model.Basic
import ClassGrammar.Settings.Basic

/-! The grammar of a class model before its references are linked. Classes, and data types that
are not primitive, become interfaces; enumerations become unions; a navigable end of an
association becomes an attribute of the interface at the other end. Ends are inserted after all
declarations, so an association may come before the classes that it connects. -/
namespace ClassGrammar

/-- Where in an interface a reference stands. -/
inductive Place where
  | attribute (index : Nat)
  | superType (index : Nat)
  deriving DecidableEq, Repr

/-- A reference that is still to be linked. -/
structure Slot where
  owner : Nat
  place : Place
  deriving DecidableEq, Repr

/-- How a property comes to be an attribute. -/
inductive Role where
  | owned
  | associationEnd
  deriving DecidableEq, Repr

/-- The type for an element: primitive for primitive and data types with a known name. -/
def SimpleType.ofElement (e : Element) : SimpleType :=
  match e.form with
  | .dataType => ofTypeName e.name
  | .primitiveType => ofTypeName e.name
  | _ => .named ⟨e.name, none⟩
where
  ofTypeName (name : String) : SimpleType :=
    match Primitive.ofTypeName? name with
    | some p => .primitive p
    | none => .named ⟨name, none⟩

/-- Whether an attribute links to its value. An owned property does when it is plain and its
type is a class; an association end does unless it is composite. -/
def Role.isReference (role : Role) (p : Property) (target : Element) : Bool :=
  match role with
  | owned => p.aggregation == .plain && !target.form.isDataType
  | associationEnd => p.aggregation != .composite

def OptionalityPolicy.isOptional (policy : OptionalityPolicy) (p : Property) : Bool :=
  match policy with
  | lowerBound => p.multiplicity.isOptional
  | alwaysRequired => p.aggregation != .composite && p.multiplicity.isOptional

/-- The attribute for a property whose type is the element `target`. -/
def Attribute.ofProperty (policy : OptionalityPolicy) (role : Role) (p : Property)
    (target : Element) : Attribute :=
  let type := SimpleType.ofElement target
  let single := if role.isReference p target then TypeExpr.reference type else .simple type
  { name := p.name
    isOptional := policy.isOptional p
    type := if p.multiplicity.isMany then .array single else single }

/-- The ends that become attributes, by position, or nothing when the number of navigable
tokens is neither one nor two. A token that names no end stands for the second. -/
def navigableEnds? (first second : Property) : List String → Option (List Nat)
  | [_, _] => some [0, 1]
  | [token] => some [(endIndex? first second token).getD 1]
  | _ => none

/-- An association end on its way into the interface of its receiver. -/
structure NavigableEnd where
  association : Element
  property : Property
  receiver : Handle
  deriving DecidableEq, Repr

/-- The end at a position; it is received by the type of the other end. -/
def NavigableEnd.ofPosition (association : Element) (first second : Property) (position : Nat) :
    NavigableEnd :=
  if position = 0 then ⟨association, first, second.type⟩ else ⟨association, second, first.type⟩

def ArityPolicy.select (policy : ArityPolicy) (association : Element) (first second : Property)
    (tokens : List String) : Except Fault (List NavigableEnd) :=
  match navigableEnds? first second tokens, policy with
  | some positions, _ => .ok (positions.map (NavigableEnd.ofPosition association first second))
  | none, strict => .error (.associationArity association.describe tokens.length)
  | none, lenient => .ok []

structure Outline where
  grammar : Grammar
  /-- The interface made for each element, the last made first. -/
  owners : List (Handle × Nat) := []
  pending : List Slot := []
  ends : List NavigableEnd := []
  deriving DecidableEq, Repr

namespace Outline

def start (s : Settings) : Outline :=
  { grammar := { name := s.grammarName, entryRule := s.entryRule } }

def checkUnique (o : Outline) (name : String) : Except Fault Unit :=
  if o.grammar.hasType name then .error (.duplicateInterface name) else .ok ()

/-- Adds the interface of an element; its super types are to be linked. -/
def addInterface (o : Outline) (h : Handle) (i : Interface) : Outline :=
  let position := o.grammar.interfaces.length
  { o with
    grammar := { o.grammar with interfaces := o.grammar.interfaces ++ [i] }
    owners := (h, position) :: o.owners
    pending := o.pending ++
      (List.range i.superTypes.length).map fun k => ⟨position, .superType k⟩ }

def addUnion (o : Outline) (u : Union) : Outline :=
  { o with grammar := { o.grammar with unions := o.grammar.unions ++ [u] } }

/-- Adds an attribute to the interface at a position. Its type is to be linked when it has a
name, and noted when it is primitive. -/
def addAttribute (o : Outline) (owner : Nat) (a : Attribute) : Outline :=
  let position := (o.grammar.interface owner).attributes.length
  { o with
    grammar := { o.grammar with
      interfaces := o.grammar.interfaces.modify owner fun i =>
        { i with attributes := i.attributes ++ [a] }
      primitives := o.grammar.primitives ++ a.type.primitive?.toList }
    pending :=
      if a.type.typeRef?.isSome then o.pending ++ [⟨owner, .attribute position⟩] else o.pending }

def addAttributes (o : Outline) (owner : Nat) : List Attribute → Outline
  | [] => o
  | a :: rest => addAttributes (o.addAttribute owner a) owner rest

/-- Adds what a top-level element declares. -/
def addElement (s : Settings) (m : Model) (o : Outline) (h : Handle) : Except Fault Outline :=
  let e := m.element h
  match e.form with
  | .classifier _ attributes generalizations => do
      o.checkUnique e.name
      let supers := (generalizations.flatMap (·.targets)).map fun t =>
        (⟨(m.element t).name, none⟩ : TypeRef)
      return (o.addInterface h ⟨e.name, supers, []⟩).addAttributes o.grammar.interfaces.length
        (attributes.map fun p =>
          .ofProperty s.compositeOptionality .owned p (m.element p.type))
  | .dataType =>
      if (Primitive.ofTypeName? e.name).isSome then return o
      else do
        o.checkUnique e.name
        return o.addInterface h ⟨e.name, [], []⟩
  | .primitiveType => return o
  | .enumeration literals => do
      o.checkUnique e.name
      return o.addUnion ⟨e.name, literals.map (·.name)⟩
  | .association first second tokens => do
      let ends ← s.associationArity.select e first second tokens
      return { o with ends := o.ends ++ ends }

def addElements (s : Settings) (m : Model) (o : Outline) : List Handle → Except Fault Outline
  | [] => .ok o
  | h :: rest => do
      let o ← addElement s m o h
      addElements s m o rest

/-- Makes an association end an attribute of its receiver. -/
def insertEnd (s : Settings) (m : Model) (o : Outline) (e : NavigableEnd) :
    Except Fault Outline :=
  match o.owners.lookup e.receiver with
  | some owner => .ok (o.addAttribute owner
      (.ofProperty s.compositeOptionality .associationEnd e.property (m.element e.property.type)))
  | none => .error (.danglingReference (m.element e.receiver).name
      s!"owner of end '{e.property.name}' of association {e.association.describe}")

def insertEnds (s : Settings) (m : Model) (o : Outline) :
    List NavigableEnd → Except Fault Outline
  | [] => .ok o
  | e :: rest => do
      let o ← insertEnd s m o e
      insertEnds s m o rest

/-- The declarations of all top-level elements, with the association ends inserted. -/
def ofModel (s : Settings) (m : Model) : Except Fault Outline := do
  let o ← addElements s m (start s) m.roots
  insertEnds s m o o.ends

end Outline
end ClassGrammar
