import ClassGrammar.Fault
import ClassGrammar.Markup.Event
import ClassGrammar.Node.Preorder

/-! Documents: a tree read from markup, the model in it, and the members of the model with those
of packages in place of the packages. -/
namespace ClassGrammar

structure Document where
  /-- Holds the outermost elements under their tags. -/
  root : Node

namespace Document

open Markup

/-- The elements that are open, innermost first, and the outermost elements that are closed. -/
structure Open where
  tags : List (String × Node) := []
  root : Node := .empty

namespace Open

/-- Adds a finished element to the innermost open one. -/
def attach (s : Open) (tag : String) (n : Node) : Open :=
  match s.tags with
  | [] => { s with root := s.root.pushChild tag n }
  | (outer, parent) :: rest => { s with tags := (outer, parent.pushChild tag n) :: rest }

/-- A node with the given attributes. -/
def nodeOf (attributes : List (String × String)) : Node :=
  attributes.foldl (fun n a => n.setAttr a.1 a.2) .empty

def step (s : Open) : Event → Except DocumentFault Open
  | .opening tag attributes => .ok { s with tags := (tag, nodeOf attributes) :: s.tags }
  | .childless tag attributes => .ok (s.attach tag (nodeOf attributes))
  | .closing => match s.tags with
    | [] => .ok s
    | (tag, n) :: rest => .ok ({ s with tags := rest }.attach tag n)
  | .ignored => .ok s
  | .broken f => .error f

def run (s : Open) : List Event → Except DocumentFault Open
  | [] => .ok s
  | e :: rest => match s.step e with
    | .ok s => s.run rest
    | .error f => .error f

end Open

/-- The document that the events describe, unless an element is left open. -/
def ofEvents (events : List Event) : Except DocumentFault Document :=
  match Open.run {} events with
  | .error f => .error f
  | .ok s => match s.tags with
    | [] => .ok ⟨s.root⟩
    | (tag, _) :: _ => .error (.unclosed tag)

def read (bytes : Bytes) : Except DocumentFault Document := ofEvents (eventsOf bytes)

/-- A quick check that the bytes are text that names an element for models. -/
def check (bytes : Bytes) : Except DocumentFault Unit :=
  match Text.decodeUtf8 bytes with
  | .error f => .error (.notText f)
  | .ok _ =>
      if (find? (ascii "uml:Model") bytes).isSome ∨ (find? (ascii "xmi:XMI") bytes).isSome then
        .ok ()
      else .error .noModelTag

/-- The model, outermost or inside its wrapper. -/
def model (d : Document) : Except Fault Node :=
  match d.root.child? "uml:Model" with
  | some m => .ok m
  | none => match (d.root.child? "xmi:XMI").bind (·.child? "uml:Model") with
    | some m => .ok m
    | none => .error (.missingElement "uml:Model")

end Document

namespace Node

def isPackage (n : Node) : Bool := n.kind? == some "uml:Package"

/-- The members of a model or of a package. -/
def members (n : Node) : List Node := n.children "packagedElement"

theorem weight_members_le (n : Node) : weight n.members ≤ weight n.childNodes := by
  unfold members children
  split
  next e he =>
    have hmem : e.nodes ∈ n.entries.map Entry.nodes :=
      List.mem_map_of_mem (List.mem_of_find?_eq_some he)
    obtain ⟨before, after, hall⟩ := List.infix_of_mem_flatten hmem
    rw [childNodes, List.flatMap_def, ← hall, weight_append, weight_append]
    omega
  next => exact Nat.zero_le _

end Node

namespace Document

/-- The members in some lists, the innermost list first. A package is entered on the way: its
members come before what is left of the list that it stands in. -/
def unpack : List (List Node) → List Node
  | [] => []
  | [] :: rest => unpack rest
  | (n :: ns) :: rest =>
      if n.isPackage then unpack (n.members :: ns :: rest) else n :: unpack (ns :: rest)
termination_by lists => 2 * Node.weight lists.flatten + lists.length
decreasing_by
  · simp
  · have := n.weight_members_le
    simp only [List.flatten_cons, List.length_cons, Node.weight_append, Node.weight_cons]
    omega
  · simp only [List.flatten_cons, List.length_cons, Node.weight_append, Node.weight_cons]
    omega

/-- The members of the model, packages replaced by their members, in document order. -/
def packagedElements (d : Document) : Except Fault (List Node) :=
  d.model.map fun m => unpack [m.members]

end Document
end ClassGrammar
