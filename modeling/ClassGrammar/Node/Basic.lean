/-! The attributed tree that a document is read into. The entries of a node are an ordered map:
attributes stand under their name with the mark `@_`, child nodes under their tag. A tag that
occurred once holds one node, a tag that occurred again holds a list. -/
namespace ClassGrammar

mutual

inductive Node where
  | mk (entries : List Entry)

/-- One key of a node with what is stored under it. -/
inductive Entry where
  | text (key value : String)
  | one (key : String) (child : Node)
  | many (key : String) (children : List Node)

end

namespace Entry

def key : Entry → String
  | text k _ => k
  | one k _ => k
  | many k _ => k

/-- The nodes held by the entry, none for an attribute. -/
def nodes : Entry → List Node
  | text _ _ => []
  | one _ n => [n]
  | many _ ns => ns

end Entry

namespace Node

def empty : Node := mk []

instance : Inhabited Node := ⟨empty⟩

def entries : Node → List Entry
  | mk es => es

def isEmpty (n : Node) : Bool := n.entries.isEmpty

def keys (n : Node) : List String := n.entries.map Entry.key

def entry? (n : Node) (key : String) : Option Entry := n.entries.find? (·.key == key)

/-- The key of an attribute. -/
def attrKey (name : String) : String := "@_" ++ name

/-- Replaces the entry with the same key in its place, or adds the entry at the end. -/
def putEntry (e : Entry) : List Entry → List Entry
  | [] => [e]
  | f :: rest => if f.key == e.key then e :: rest else f :: putEntry e rest

def put (n : Node) (e : Entry) : Node := mk (putEntry e n.entries)

def setAttr (n : Node) (name value : String) : Node := n.put (.text (attrKey name) value)

/-- Stores a list of children, even when it has one member, in place of what the tag held. -/
def setChildren (n : Node) (tag : String) (children : List Node) : Node :=
  n.put (.many tag children)

/-- The entry of a tag after one more child. -/
def pushed (tag : String) (child : Node) : Option Entry → Entry
  | some (.one _ first) => .many tag [first, child]
  | some (.many _ children) => .many tag (children ++ [child])
  | _ => .one tag child

/-- Adds a child after the children of the same tag. -/
def pushChild (n : Node) (tag : String) (child : Node) : Node :=
  n.put (pushed tag child (n.entry? tag))

def attr? (n : Node) (name : String) : Option String :=
  match n.entry? (attrKey name) with
  | some (.text _ value) => some value
  | _ => none

def id? (n : Node) : Option String := n.attr? "xmi:id"

/-- The metaclass that the node states. -/
def kind? (n : Node) : Option String := n.attr? "xmi:type"

def name? (n : Node) : Option String := n.attr? "name"

/-- The children of a tag in document order, however they are stored. -/
def children (n : Node) (tag : String) : List Node :=
  match n.entry? tag with
  | some e => e.nodes
  | none => []

def child? (n : Node) (tag : String) : Option Node := (n.children tag).head?

def hasChild (n : Node) (tag : String) : Bool := !(n.children tag).isEmpty

/-- All children, tag by tag in entry order. -/
def childNodes (n : Node) : List Node := n.entries.flatMap Entry.nodes

/-- Name and identifier of a node, for fault messages. -/
def describe (n : Node) : String :=
  match n.name?, n.id? with
  | some name, some id => s!"'{name}' ({id})"
  | some name, none => s!"'{name}'"
  | none, some id => s!"({id})"
  | none, none => "<anonymous>"

end Node

/-! Equality disregards the order of entries, and nothing else. -/

mutual

def Node.same : Node → Node → Bool
  | .mk es, m => es.length == m.entries.length && Entry.allIn es m

/-- Whether the node holds every one of the entries. -/
def Entry.allIn : List Entry → Node → Bool
  | [], _ => true
  | e :: es, m => e.isIn m && Entry.allIn es m

def Entry.isIn : Entry → Node → Bool
  | .text k v, m => match m.entry? k with
    | some (.text _ w) => v == w
    | _ => false
  | .one k n, m => match m.entry? k with
    | some (.one _ n') => n.same n'
    | _ => false
  | .many k ns, m => match m.entry? k with
    | some (.many _ ns') => Node.sameAll ns ns'
    | _ => false

def Node.sameAll : List Node → List Node → Bool
  | [], [] => true
  | n :: ns, m :: ms => n.same m && Node.sameAll ns ms
  | _, _ => false

end

end ClassGrammar
