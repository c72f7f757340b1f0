import ClassGrammar.Node.Basic

/-! The nodes of a tree in document order, each before its children, and induction over a tree. -/
namespace ClassGrammar

mutual

/-- The node and all nodes below it, each before its children. -/
def Node.preorder : Node → List Node
  | .mk es => .mk es :: Entry.preorder es

def Entry.preorder : List Entry → List Node
  | [] => []
  | e :: es => e.descend ++ Entry.preorder es

def Entry.descend : Entry → List Node
  | .text _ _ => []
  | .one _ n => n.preorder
  | .many _ ns => Node.preorderAll ns

def Node.preorderAll : List Node → List Node
  | [] => []
  | n :: ns => n.preorder ++ Node.preorderAll ns

end

theorem Node.preorderAll_eq_flatMap (ns : List Node) :
    Node.preorderAll ns = ns.flatMap Node.preorder := by
  induction ns with
  | nil => rfl
  | cons n ns ih => simp [Node.preorderAll, ih]

theorem Entry.preorder_eq_flatMap (es : List Entry) :
    Entry.preorder es = (es.flatMap Entry.nodes).flatMap Node.preorder := by
  induction es with
  | nil => rfl
  | cons e es ih =>
    cases e <;> simp [Entry.preorder, Entry.descend, Entry.nodes, ih, Node.preorderAll_eq_flatMap]

/-- The preorder of a node is the node, then the preorders of its children. -/
theorem Node.preorder_eq (n : Node) :
    n.preorder = n :: n.childNodes.flatMap Node.preorder := by
  cases n
  simp [Node.preorder, Node.childNodes, Node.entries, Entry.preorder_eq_flatMap]

namespace Node

/-- The number of nodes in the trees of some nodes. -/
def weight (ns : List Node) : Nat := (ns.flatMap preorder).length

theorem weight_append (ns ms : List Node) : weight (ns ++ ms) = weight ns + weight ms := by
  rw [weight, List.flatMap_append, List.length_append, weight, weight]

theorem weight_cons (n : Node) (ns : List Node) :
    weight (n :: ns) = weight n.childNodes + 1 + weight ns := by
  rw [weight, List.flatMap_cons, n.preorder_eq, List.length_append, List.length_cons, weight,
    weight]

theorem weight_reverse (ns : List Node) : weight ns.reverse = weight ns :=
  ((List.reverse_perm ns).flatMap_right preorder).length_eq

theorem mem_childNodes_of_mem_children {n c : Node} {tag : String} (hc : c ∈ n.children tag) :
    c ∈ n.childNodes := by
  unfold children at hc
  split at hc
  next e he => exact List.mem_flatMap.mpr ⟨e, List.mem_of_find?_eq_some he, hc⟩
  next => cases hc

/-- What holds of a node and of all nodes below it. -/
theorem forall_preorder_iff {P : Node → Prop} {n : Node} :
    (∀ m ∈ n.preorder, P m) ↔ P n ∧ ∀ c ∈ n.childNodes, ∀ m ∈ c.preorder, P m := by
  rw [preorder_eq, List.forall_mem_cons, List.forall_mem_flatMap]

mutual

/-- Induction over the children of a node, in all its entries. -/
theorem induction_childNodes {P : Node → Prop}
    (h : ∀ n : Node, (∀ c ∈ n.childNodes, P c) → P n) : ∀ n : Node, P n
  | .mk es => h (.mk es) (induction_entries h es)

theorem induction_entries {P : Node → Prop}
    (h : ∀ n : Node, (∀ c ∈ n.childNodes, P c) → P n) :
    ∀ es : List Entry, ∀ c ∈ es.flatMap Entry.nodes, P c
  | [] => by simp
  | e :: es => by
      rw [List.flatMap_cons, List.forall_mem_append]
      exact ⟨induction_entry h e, induction_entries h es⟩

theorem induction_entry {P : Node → Prop}
    (h : ∀ n : Node, (∀ c ∈ n.childNodes, P c) → P n) :
    ∀ e : Entry, ∀ c ∈ e.nodes, P c
  | .text _ _ => by simp [Entry.nodes]
  | .one _ n => by
      rw [Entry.nodes, List.forall_mem_singleton]
      exact induction_childNodes h n
  | .many _ ns => induction_nodes h ns

theorem induction_nodes {P : Node → Prop}
    (h : ∀ n : Node, (∀ c ∈ n.childNodes, P c) → P n) : ∀ ns : List Node, ∀ c ∈ ns, P c
  | [] => by simp
  | n :: ns => by
      rw [List.forall_mem_cons]
      exact ⟨induction_childNodes h n, induction_nodes h ns⟩

end

/-- Induction over the children that a node has under its tags. -/
theorem induction_children {P : Node → Prop}
    (h : ∀ n : Node, (∀ tag, ∀ c ∈ n.children tag, P c) → P n) (n : Node) : P n := by
  induction n using induction_childNodes with
  | h n ih => exact h n fun _ c hc => ih c (mem_childNodes_of_mem_children hc)

end Node
end ClassGrammar
