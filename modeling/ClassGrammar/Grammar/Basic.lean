import ClassGrammar.Primitive

/-! Grammars: interfaces with typed attributes, unions of literals, and the primitive types in
use. A reference to a type holds its name, and its target once it is linked. -/
namespace ClassGrammar

/-- The position of a declaration in its grammar. -/
inductive Target where
  | interface (index : Nat)
  | union (index : Nat)
  deriving DecidableEq, Repr

structure TypeRef where
  name : String
  target : Option Target := none
  deriving DecidableEq, Repr

def TypeRef.isResolved (r : TypeRef) : Bool := r.target.isSome

inductive SimpleType where
  | primitive (p : Primitive)
  | named (ref : TypeRef)
  deriving DecidableEq, Repr

inductive TypeExpr where
  | simple (type : SimpleType)
  /-- A link to a value that is kept elsewhere. -/
  | reference (type : SimpleType)
  /-- Many values. -/
  | array (element : TypeExpr)
  deriving DecidableEq, Repr

namespace TypeExpr

/-- The type inside all arrays and references. -/
def innermost : TypeExpr → SimpleType
  | simple t => t
  | reference t => t
  | array e => e.innermost

def isArray : TypeExpr → Bool
  | array _ => true
  | _ => false

def isReference : TypeExpr → Bool
  | simple _ => false
  | reference _ => true
  | array e => e.isReference

def typeRef? (t : TypeExpr) : Option TypeRef :=
  match t.innermost with
  | .named ref => some ref
  | .primitive _ => none

def primitive? (t : TypeExpr) : Option Primitive :=
  match t.innermost with
  | .primitive p => some p
  | .named _ => none

/-- The expression with another type inside all arrays and references. -/
def withInnermost (s : SimpleType) : TypeExpr → TypeExpr
  | simple _ => simple s
  | reference _ => reference s
  | array e => array (e.withInnermost s)

@[simp] theorem innermost_withInnermost (s : SimpleType) (t : TypeExpr) :
    (t.withInnermost s).innermost = s := by
  induction t with
  | simple => rfl
  | reference => rfl
  | array e ih => exact ih

end TypeExpr

structure Attribute where
  name : String
  isOptional : Bool
  type : TypeExpr
  deriving DecidableEq, Repr

structure Interface where
  name : String
  superTypes : List TypeRef := []
  /-- The attributes of the class, then those made from association ends. -/
  attributes : List Attribute := []
  deriving DecidableEq, Repr

instance : Inhabited Interface := ⟨⟨"", [], []⟩⟩

/-- The first attribute with the name. -/
def Interface.attribute? (i : Interface) (name : String) : Option Attribute :=
  i.attributes.find? (·.name == name)

/-- The alternatives that stand for an enumeration. -/
structure Union where
  name : String
  literals : List String
  deriving DecidableEq, Repr

instance : Inhabited Union := ⟨⟨"", []⟩⟩

def quoted (literal : String) : String := s!"'{literal}'"

/-- The name, then each literal in quotes. -/
def Union.entries (u : Union) : List String := u.name :: u.literals.map quoted

/-- The positions of names that were entered in order, the last one first. A name that is entered
again hides its earlier position. -/
def nameTable (names : List String) : List (String × Nat) := names.zipIdx.reverse

structure Grammar where
  name : String
  entryRule : String
  interfaces : List Interface := []
  unions : List Union := []
  /-- The primitive types of the attributes, in the order in which they were met. -/
  primitives : List Primitive := []
  deriving DecidableEq, Repr

namespace Grammar

/-- The interface at a position that the grammar has. -/
def interface (g : Grammar) (i : Nat) : Interface := g.interfaces.getD i default

def union (g : Grammar) (i : Nat) : Union := g.unions.getD i default

/-- The table of the interfaces. Adding an interface inserts its name, see `nameTable_concat`. -/
def interfaceTable (g : Grammar) : List (String × Nat) := nameTable (g.interfaces.map (·.name))

/-- The table of the unions, likewise. -/
def unionTable (g : Grammar) : List (String × Nat) := nameTable (g.unions.map (·.name))

def findInterface? (g : Grammar) (name : String) : Option Nat := g.interfaceTable.lookup name

def findUnion? (g : Grammar) (name : String) : Option Nat := g.unionTable.lookup name

/-- Whether an interface or a union has the name. -/
def hasType (g : Grammar) (name : String) : Bool :=
  (g.findInterface? name).isSome || (g.findUnion? name).isSome

/-- The names of all declarations, interfaces first. -/
def declared (g : Grammar) : List String := g.interfaces.map (·.name) ++ g.unions.map (·.name)

def targetName (g : Grammar) : Target → String
  | .interface i => (g.interface i).name
  | .union i => (g.union i).name

/-- Whether every reference in the grammar has a target. -/
def isLinked (g : Grammar) : Bool :=
  g.interfaces.all fun i =>
    i.superTypes.all TypeRef.isResolved &&
      i.attributes.all fun a => a.type.typeRef?.all TypeRef.isResolved

def dedupePrimitives (g : Grammar) : Grammar :=
  { g with primitives := Primitive.dedupe g.primitives }

end Grammar
end ClassGrammar
