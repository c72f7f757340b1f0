import ClassGrammar.Fault
import ClassGrammar.Node.Preorder

/-! Nodes by identifier. The index holds one node for each identifier; when an identifier
occurs again, the node met last replaces the earlier one. -/
namespace ClassGrammar

structure IdIndex where
  nodes : List Node

namespace IdIndex

def empty : IdIndex := ⟨[]⟩

def size (ix : IdIndex) : Nat := ix.nodes.length

def isEmpty (ix : IdIndex) : Bool := ix.nodes.isEmpty

def get? (ix : IdIndex) (id : String) : Option Node := ix.nodes.find? (·.id? == some id)

def contains (ix : IdIndex) (id : String) : Bool := (ix.get? id).isSome

/-- The node of an identifier; `context` says in a fault where the identifier was met. -/
def resolve (ix : IdIndex) (id context : String) : Except Fault Node :=
  match ix.get? id with
  | some n => .ok n
  | none => .error (.danglingReference id context)

/-- Replaces the node that has the same identifier, or adds the node at the end. -/
def putNode (n : Node) : List Node → List Node
  | [] => [n]
  | m :: rest => if m.id? == n.id? then n :: rest else m :: putNode n rest

/-- The index after one more node. A node without identifier leaves no trace. -/
def add (ix : IdIndex) (n : Node) : IdIndex :=
  if n.id?.isSome then ⟨putNode n ix.nodes⟩ else ix

/-- The list with its part from a position on in reverse order. -/
def reverseFrom (position : Nat) (ns : List Node) : List Node :=
  ns.take position ++ (ns.drop position).reverse

theorem reverseFrom_length_append (ns ms : List Node) :
    reverseFrom ns.length (ns ++ ms) = ns ++ ms.reverse := by
  rw [reverseFrom, List.take_left, List.drop_left]

/-- Adds the nodes of a stack, the last one first, each before the nodes below it. The children of a
node are put on the stack in their order and reversed there, so the first one is taken next. -/
def addStack (ix : IdIndex) (stack : List Node) : IdIndex :=
  if h : stack = [] then ix
  else
    let n := stack.getLast h
    let rest := stack.dropLast
    addStack (ix.add n) (reverseFrom rest.length (rest ++ n.childNodes))
termination_by Node.weight stack
decreasing_by
  have hstack : rest ++ [n] = stack := List.dropLast_concat_getLast h
  have hweight : Node.weight rest + (Node.weight n.childNodes + 1 + Node.weight []) =
      Node.weight stack := by
    rw [← Node.weight_cons, ← Node.weight_append, hstack]
  calc Node.weight (reverseFrom rest.length (rest ++ n.childNodes))
      = Node.weight rest + Node.weight n.childNodes := by
        rw [reverseFrom_length_append, Node.weight_append, Node.weight_reverse]
    _ < Node.weight stack := by omega

/-- The index of all nodes reachable from the roots, in document order. -/
def ofRoots (roots : List Node) : IdIndex := empty.addStack roots.reverse

theorem get?_mem {ix : IdIndex} {id : String} {n : Node} (h : ix.get? id = some n) :
    n ∈ ix.nodes ∧ n.id? = some id := by
  refine ⟨List.mem_of_find?_eq_some h, ?_⟩
  simpa using List.find?_some h

end IdIndex
end ClassGrammar
