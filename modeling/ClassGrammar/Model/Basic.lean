/-! Class models: elements addressed by handles in the order in which they were added, the
handles of the top-level elements, and a table of identifiers. -/
namespace ClassGrammar

abbrev Handle := Nat

inductive Visibility where
  | publicAccess
  | privateAccess
  | protectedAccess
  | packageAccess
  deriving DecidableEq, Repr

/-- A missing or unknown visibility is public. -/
def Visibility.ofText : Option String → Visibility
  | some "private" => privateAccess
  | some "protected" => protectedAccess
  | some "package" => packageAccess
  | _ => publicAccess

/-- How a property owns its value. -/
inductive Aggregation where
  | plain
  | shared
  | composite
  deriving DecidableEq, Repr

/-- A missing or unknown aggregation is plain. -/
def Aggregation.ofText : Option String → Aggregation
  | some "composite" => composite
  | some "shared" => shared
  | _ => plain

/-- The bounds of a property. An upper bound of two stands for all bounds above one. -/
structure Multiplicity where
  lower : Nat
  upper : Nat
  deriving DecidableEq, Repr

namespace Multiplicity

/-- The stored upper bound of properties with many values. -/
def many : Nat := 2

def one : Multiplicity := ⟨1, 1⟩

def ofBounds (lower upper : Nat) : Multiplicity := ⟨lower, min upper many⟩

def isOptional (m : Multiplicity) : Bool := m.lower == 0

def isMany (m : Multiplicity) : Bool := 1 < m.upper

end Multiplicity

/-- An attribute of a class, or an end of an association. -/
structure Property where
  id : Option String
  name : String
  visibility : Visibility
  multiplicity : Multiplicity
  aggregation : Aggregation
  type : Handle
  /-- The association of an end, nothing for an attribute. -/
  association : Option Handle
  deriving DecidableEq, Repr

structure Generalization where
  id : Option String
  targets : List Handle
  deriving DecidableEq, Repr

structure Literal where
  id : Option String
  name : String
  visibility : Visibility
  deriving DecidableEq, Repr

/-- What an element is, with the parts that only its metaclass has. -/
inductive Form where
  | classifier (isInterface : Bool) (attributes : List Property)
      (generalizations : List Generalization)
  | dataType
  | primitiveType
  | enumeration (literals : List Literal)
  | association (first second : Property) (navigable : List String)
  deriving DecidableEq, Repr

structure Element where
  id : Option String
  name : String
  visibility : Visibility
  form : Form
  deriving DecidableEq, Repr

namespace Form

def metaclass : Form → String
  | classifier true _ _ => "Interface"
  | classifier false _ _ => "Class"
  | dataType => "DataType"
  | primitiveType => "PrimitiveType"
  | enumeration _ => "Enumeration"
  | association _ _ _ => "Association"

/-- Whether values of the element are written in place and never referred to. -/
def isDataType : Form → Bool
  | dataType => true
  | primitiveType => true
  | enumeration _ => true
  | _ => false

end Form

namespace Element

instance : Inhabited Element := ⟨⟨none, "", .publicAccess, .dataType⟩⟩

/-- A class with the given members; other elements have none. -/
def withMembers (e : Element) (attributes : List Property)
    (generalizations : List Generalization) : Element :=
  match e.form with
  | .classifier isInterface _ _ =>
      { e with form := .classifier isInterface attributes generalizations }
  | _ => e

/-- Name and identifier for fault messages; an empty name counts as absent. -/
def describe (e : Element) : String :=
  let name := e.name
  match e.id with
  | some id => if name = "" then s!"({id})" else s!"'{name}' ({id})"
  | none => if name = "" then "<anonymous>" else s!"'{name}'"

end Element

/-- The position among two ends of the first one that has the token as identifier or name. -/
def endIndex? (first second : Property) (token : String) : Option Nat :=
  [first, second].findIdx? fun p => p.id == some token || p.name == token

structure Model where
  elements : List Element := []
  roots : List Handle := []
  /-- Handles by identifier or library reference, the last registered first. -/
  table : List (String × Handle) := []
  deriving DecidableEq, Repr

namespace Model

def size (m : Model) : Nat := m.elements.length

def isEmpty (m : Model) : Bool := m.elements.isEmpty

/-- The element at a handle that the model gave out. -/
def element (m : Model) (h : Handle) : Element := m.elements.getD h default

def lookup (m : Model) (key : String) : Option Handle := m.table.lookup key

/-- The first element with the name. -/
def findByName? (m : Model) (name : String) : Option Handle :=
  m.elements.findIdx? (·.name == name)

/-- Registers a handle under a key. -/
def register (m : Model) (key : String) (h : Handle) : Model :=
  { m with table := (key, h) :: m.table }

/-- Adds an element at the handle `m.size` and registers its identifier. -/
def add (m : Model) (e : Element) : Model :=
  { m with
    elements := m.elements ++ [e]
    table := match e.id with
      | some id => (id, m.size) :: m.table
      | none => m.table }

/-- Fills the members of the class at a handle. -/
def setMembers (m : Model) (h : Handle) (attributes : List Property)
    (generalizations : List Generalization) : Model :=
  { m with elements := m.elements.modify h (·.withMembers attributes generalizations) }

def addRoot (m : Model) (h : Handle) : Model := { m with roots := m.roots ++ [h] }

theorem element_of_getElem? {m : Model} {h : Handle} {e : Element}
    (he : m.elements[h]? = some e) : m.element h = e := by
  rw [element, List.getD_eq_getElem?_getD, he, Option.getD_some]

theorem mem_elements_of_lt {m : Model} {h : Handle} (hlt : h < m.size) :
    m.element h ∈ m.elements := by
  rw [element_of_getElem? (List.getElem?_eq_getElem hlt)]
  exact List.getElem_mem hlt

@[simp] theorem lookup_setMembers (m : Model) (h : Handle) (as : List Property)
    (gs : List Generalization) (key : String) :
    (m.setMembers h as gs).lookup key = m.lookup key := rfl

theorem lookup_cons (key k : String) (h : Handle) (table : List (String × Handle)) :
    ((key, h) :: table).lookup k = if k = key then some h else table.lookup k := by
  by_cases hk : k = key
  · simp [hk]
  · simp [List.lookup_cons, beq_false_of_ne hk, hk]

theorem lookup_register (m : Model) (key k : String) (h : Handle) :
    (m.register key h).lookup k = if k = key then some h else m.lookup k :=
  lookup_cons key k h m.table

theorem lookup_add (m : Model) (e : Element) (k : String) :
    (m.add e).lookup k = if e.id = some k then some m.size else m.lookup k := by
  unfold lookup add
  cases he : e.id with
  | none => simp
  | some id => simp [lookup_cons, eq_comm]

end Model
end ClassGrammar
