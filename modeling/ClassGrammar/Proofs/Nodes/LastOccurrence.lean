import ClassGrammar.Proofs.Nodes.IndexSearch
import Mathlib.Data.Finset.Card

/-! Which node the index has for an identifier. Of all nodes that carry it, at any depth, it is the
last one in document order. -/
namespace ClassGrammar

namespace Node

/-- Whether a node stands in the trees of some nodes, at any depth. -/
inductive Occurs (roots : List Node) : Node → Prop where
  | root {n : Node} (mem : n ∈ roots) : Occurs roots n
  | child {n c : Node} (parent : Occurs roots n) (mem : c ∈ n.childNodes) : Occurs roots c

theorem self_mem_preorder (n : Node) : n ∈ n.preorder := by
  rw [preorder_eq]
  exact List.mem_cons_self

theorem mem_preorder_of_mem_childNodes {r n c : Node} (hn : n ∈ r.preorder)
    (hc : c ∈ n.childNodes) : c ∈ r.preorder := by
  induction r using induction_childNodes with
  | h r ih =>
    rw [preorder_eq] at hn ⊢
    apply List.mem_cons_of_mem
    rcases List.mem_cons.mp hn with rfl | hbelow
    · exact List.mem_flatMap.mpr ⟨c, hc, c.self_mem_preorder⟩
    · obtain ⟨child, hchild, hmem⟩ := List.mem_flatMap.mp hbelow
      exact List.mem_flatMap.mpr ⟨child, hchild, ih child hchild hmem⟩

theorem Occurs.of_mem_preorder {roots : List Node} {r n : Node} (hr : Occurs roots r)
    (hn : n ∈ r.preorder) : Occurs roots n := by
  induction r using induction_childNodes with
  | h r ih =>
    rw [preorder_eq] at hn
    rcases List.mem_cons.mp hn with rfl | hbelow
    · exact hr
    · obtain ⟨child, hchild, hmem⟩ := List.mem_flatMap.mp hbelow
      exact ih child hchild (hr.child hchild) hmem

theorem occurs_iff {roots : List Node} {n : Node} : Occurs roots n ↔ n ∈ preorderAll roots := by
  rw [preorderAll_eq_flatMap, List.mem_flatMap]
  constructor
  · intro h
    induction h with
    | @root n mem => exact ⟨n, mem, n.self_mem_preorder⟩
    | child _ mem ih =>
      obtain ⟨r, hr, hn⟩ := ih
      exact ⟨r, hr, mem_preorder_of_mem_childNodes hn mem⟩
  · rintro ⟨r, hr, hn⟩
    exact (Occurs.root hr).of_mem_preorder hn

/-- Whether a node is the last one with an identifier in a list. -/
def IsLast (id : String) (ns : List Node) (n : Node) : Prop :=
  ∃ before after, ns = before ++ n :: after ∧ n.id? = some id ∧ ∀ m ∈ after, m.id? ≠ some id

theorem find?_reverse_eq_some {id : String} {ns : List Node} {n : Node} :
    ns.reverse.find? (·.id? == some id) = some n ↔ IsLast id ns n := by
  rw [List.find?_eq_some_iff_append]
  constructor
  · rintro ⟨hn, later, earlier, hns, hlater⟩
    refine ⟨earlier.reverse, later.reverse, ?_, by simpa using hn, ?_⟩
    · rw [← ns.reverse_reverse, hns]
      simp
    · intro m hm
      simpa using hlater m (List.mem_reverse.mp hm)
  · rintro ⟨before, after, rfl, hn, hafter⟩
    refine ⟨by simpa using hn, after.reverse, before.reverse, by simp, ?_⟩
    intro m hm
    simpa using hafter m (List.mem_reverse.mp hm)

end Node

namespace IdIndex

/-- Whether the nodes of an index carry the given identifiers, each of them once. -/
structure Keyed (ix : IdIndex) (keys : List String) : Prop where
  ids : ix.nodes.map Node.id? = keys.map some
  distinct : keys.Nodup

theorem map_id?_putNode (n : Node) (ns : List Node) : (putNode n ns).map Node.id? =
    if n.id? ∈ ns.map Node.id? then ns.map Node.id? else ns.map Node.id? ++ [n.id?] := by
  induction ns with
  | nil => simp [putNode]
  | cons m rest ih =>
    by_cases hm : m.id? = n.id?
    · simp [putNode, hm]
    · simp only [putNode, beq_eq_false_iff_ne.mpr hm, Bool.false_eq_true, if_false, List.map_cons,
        ih, List.mem_cons, Ne.symm hm, false_or]
      split <;> rfl

namespace Keyed

variable {ix : IdIndex} {keys : List String}

theorem empty : IdIndex.empty.Keyed [] := ⟨rfl, List.nodup_nil⟩

theorem add (h : ix.Keyed keys) (n : Node) : ∃ keys', (ix.add n).Keyed keys' := by
  unfold IdIndex.add
  cases hid : n.id? with
  | none => exact ⟨keys, h⟩
  | some id =>
    have hput := map_id?_putNode n ix.nodes
    rw [hid, h.ids] at hput
    by_cases hmem : id ∈ keys
    · rw [if_pos (List.mem_map_of_mem hmem)] at hput
      exact ⟨keys, hput, h.distinct⟩
    · rw [if_neg (by simpa using hmem)] at hput
      refine ⟨keys ++ [id], by simpa using hput, ?_⟩
      exact (List.perm_append_singleton id keys).nodup_iff.mpr
        (List.nodup_cons.mpr ⟨hmem, h.distinct⟩)

theorem foldl (h : ix.Keyed keys) (ns : List Node) :
    ∃ keys', (ns.foldl IdIndex.add ix).Keyed keys' := by
  induction ns generalizing ix keys with
  | nil => exact ⟨keys, h⟩
  | cons n rest ih =>
    obtain ⟨keys', h'⟩ := h.add n
    exact ih h'

theorem mem_iff (h : ix.Keyed keys) (id : String) : id ∈ keys ↔ (ix.get? id).isSome := by
  have hmem : some id ∈ ix.nodes.map Node.id? ↔ id ∈ keys := by
    rw [h.ids, List.mem_map_of_injective (Option.some_injective String)]
  rw [← hmem, get?, List.find?_isSome]
  simp

theorem size_eq (h : ix.Keyed keys) : ix.size = keys.length := by
  have hlength : (ix.nodes.map Node.id?).length = (keys.map some).length := by rw [h.ids]
  rwa [List.length_map, List.length_map] at hlength

end Keyed

variable {roots : List Node}

theorem get?_eq_none_iff {id : String} :
    (ofRoots roots).get? id = none ↔ ∀ n, Node.Occurs roots n → n.id? ≠ some id := by
  rw [get?_ofRoots]
  simp [Node.occurs_iff]

theorem size_ofRoots (roots : List Node) :
    (ofRoots roots).size = (Node.ids roots).toFinset.card := by
  obtain ⟨keys, hkeys⟩ := Keyed.empty.foldl (Node.preorderAll roots)
  rw [← ofRoots_eq] at hkeys
  have hsame : keys.toFinset = (Node.ids roots).toFinset := by
    ext id
    rw [List.mem_toFinset, List.mem_toFinset, hkeys.mem_iff, get?_ofRoots, List.find?_isSome]
    simp [Node.ids]
  rw [hkeys.size_eq, ← hsame, List.toFinset_card_of_nodup hkeys.distinct]

/-- The index of the trees of some nodes has for each identifier the last node in document order
that carries it, and none only when no node at any depth does. It has as many nodes as there are
distinct identifiers, and a reference dangles just when its identifier is absent. -/
theorem ofRoots_complete (roots : List Node) :
    (∀ id n, (ofRoots roots).get? id = some n ↔ Node.IsLast id (Node.preorderAll roots) n) ∧
    (∀ id, (ofRoots roots).get? id = none ↔ ∀ n, Node.Occurs roots n → n.id? ≠ some id) ∧
    (ofRoots roots).size = (Node.ids roots).toFinset.card ∧
    ∀ id context,
      (∀ n, (ofRoots roots).resolve id context = .ok n ↔ (ofRoots roots).get? id = some n) ∧
      ∀ f, (ofRoots roots).resolve id context = .error f ↔
        f = .danglingReference id context ∧ ∀ n, Node.Occurs roots n → n.id? ≠ some id := by
  refine ⟨?_, fun id => get?_eq_none_iff, size_ofRoots roots, ?_⟩
  · intro id n
    rw [get?_ofRoots]
    exact Node.find?_reverse_eq_some
  · intro id context
    unfold resolve
    rw [← get?_eq_none_iff]
    cases (ofRoots roots).get? id with
    | none => simp [eq_comm]
    | some n => simp

/-- An identifier that occurs inside a tree and again in the next one, in a list under a tag that
comes after another tag. -/
example :
    let leaf (name : String) : Node := .mk [.text "@_xmi:id" "x", .text "@_name" name]
    ((ofRoots [leaf "first", .mk [.one "a" (leaf "second"), .many "b" [leaf "third",
      .mk [.one "c" (leaf "fourth")], .mk []]], .mk []]).get? "x").bind Node.name? =
        some "fourth" := by
  decide +kernel

end IdIndex
end ClassGrammar
