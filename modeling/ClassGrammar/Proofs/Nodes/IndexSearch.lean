import ClassGrammar.IdIndex
import Mathlib.Data.List.Pairwise

/-! The index of identifiers as a search in the list of all nodes. -/
namespace ClassGrammar.IdIndex

theorem find?_putNode (n : Node) (ns : List Node) (id : String) :
    (putNode n ns).find? (·.id? == some id) =
      if n.id? = some id then some n else ns.find? (·.id? == some id) := by
  induction ns with
  | nil => by_cases h : n.id? = some id <;> simp [putNode, h]
  | cons m rest ih =>
    by_cases hm : m.id? = n.id?
    · by_cases h : n.id? = some id <;> simp [putNode, hm, h]
    · by_cases h : n.id? = some id
      · have hmid : m.id? ≠ some id := fun he => hm (he.trans h.symm)
        simp [putNode, hmid, ih, h]
      · simp [putNode, hm, ih, h, List.find?_cons]

theorem get?_add (ix : IdIndex) (n : Node) (id : String) :
    (ix.add n).get? id = if n.id? = some id then some n else ix.get? id := by
  cases hn : n.id? with
  | none => simp [add, hn]
  | some x =>
    have h := find?_putNode n ix.nodes id
    rw [hn] at h
    simpa [add, hn, get?] using h

/-- What a stack still yields are its trees from the top down, each in preorder. -/
theorem addStack_eq (ix : IdIndex) (stack : List Node) :
    ix.addStack stack = (stack.reverse.flatMap Node.preorder).foldl add ix := by
  fun_induction addStack ix stack with
  | case1 ix => rfl
  | case2 ix stack h n rest ih =>
    have hstack : stack.reverse = n :: rest.reverse := by
      rw [← List.dropLast_concat_getLast h, List.reverse_append]
      rfl
    rw [ih, reverseFrom_length_append, List.reverse_append, List.reverse_reverse, hstack,
      List.flatMap_append, List.flatMap_cons, n.preorder_eq, List.cons_append, List.foldl_cons]

theorem ofRoots_eq (roots : List Node) :
    ofRoots roots = (Node.preorderAll roots).foldl add empty := by
  rw [ofRoots, addStack_eq, List.reverse_reverse, Node.preorderAll_eq_flatMap]

theorem get?_foldl (ix : IdIndex) (ns : List Node) (id : String) :
    (ns.foldl add ix).get? id = (ns.reverse.find? (·.id? == some id)).or (ix.get? id) := by
  induction ns generalizing ix with
  | nil => rfl
  | cons n rest ih =>
    rw [List.foldl_cons, ih, get?_add, List.reverse_cons, List.find?_append, Option.or_assoc]
    by_cases h : n.id? = some id <;> simp [h]

/-- The index finds the last node that carries an identifier, in document order. -/
theorem get?_ofRoots (roots : List Node) (id : String) :
    (ofRoots roots).get? id = (Node.preorderAll roots).reverse.find? (·.id? == some id) := by
  rw [ofRoots_eq, get?_foldl]
  exact Option.or_none

theorem mem_of_get?_ofRoots {roots : List Node} {id : String} {n : Node}
    (h : (ofRoots roots).get? id = some n) : n ∈ Node.preorderAll roots := by
  rw [get?_ofRoots] at h
  exact List.mem_reverse.mp (List.mem_of_find?_eq_some h)

end ClassGrammar.IdIndex

namespace ClassGrammar.Node

theorem mem_preorderAll_of_mem {roots : List Node} {n : Node} (h : n ∈ roots) :
    n ∈ preorderAll roots := by
  rw [preorderAll_eq_flatMap]
  exact List.mem_flatMap.mpr ⟨n, h, by rw [preorder_eq]; exact List.mem_cons_self⟩

/-- The identifiers in the trees of some nodes. -/
def ids (roots : List Node) : List String := (preorderAll roots).filterMap id?

theorem mem_ids {roots : List Node} {n : Node} {id : String} (hn : n ∈ preorderAll roots)
    (hid : n.id? = some id) : id ∈ ids roots :=
  List.mem_filterMap.mpr ⟨n, hn, hid⟩

/-- Whether each identifier in the trees of some nodes is carried by one node only. -/
def DistinctIds (roots : List Node) : Prop := (ids roots).Nodup

instance (roots : List Node) : Decidable (DistinctIds roots) :=
  inferInstanceAs (Decidable (ids roots).Nodup)

theorem DistinctIds.eq_of_id {roots : List Node} (h : DistinctIds roots) {n m : Node}
    {id : String} (hn : n ∈ preorderAll roots) (hm : m ∈ preorderAll roots)
    (hnid : n.id? = some id) (hmid : m.id? = some id) : n = m := by
  have hp := List.pairwise_filterMap.mp h
  by_contra hne
  have hs : Std.Symm fun a b : Node => ∀ x, a.id? = some x → ∀ y, b.id? = some y → x ≠ y :=
    ⟨fun a b hab x hx y hy hxy => hab y hy x hx hxy.symm⟩
  exact hp.forall hn hm hne id hnid id hmid rfl

end ClassGrammar.Node
