import ClassGrammar.Proofs.Nodes.IndexSearch
import ClassGrammar.Proofs.General.WordChanges
import Mathlib.Logic.Function.Basic

/-! Other identifiers for the nodes of a document. The attributes that hold identifiers, or refer to
nodes by them, are changed throughout the trees, and nothing else. -/
namespace ClassGrammar

/-- The value of an attribute under other identifiers. -/
def renamedValue (s : String → String) (key value : String) : String :=
  if key = "@_xmi:id" ∨ key = "@_type" ∨ key = "@_general" then s value
  else if key = "@_navigableOwnedEnd" then Text.mapWords s value
  else value

mutual

/-- The node under other identifiers. -/
def Node.rename (s : String → String) : Node → Node
  | .mk es => .mk (Entry.renameAll s es)

def Entry.renameAll (s : String → String) : List Entry → List Entry
  | [] => []
  | e :: es => e.rename s :: Entry.renameAll s es

def Entry.rename (s : String → String) : Entry → Entry
  | .text key value => .text key (renamedValue s key value)
  | .one key n => .one key (n.rename s)
  | .many key ns => .many key (Node.renameAll s ns)

def Node.renameAll (s : String → String) : List Node → List Node
  | [] => []
  | n :: ns => n.rename s :: Node.renameAll s ns

end

section

variable (s : String → String)

theorem Node.renameAll_eq_map (ns : List Node) : Node.renameAll s ns = ns.map (Node.rename s) := by
  induction ns with
  | nil => rfl
  | cons n ns ih => rw [renameAll, ih, List.map_cons]

theorem Entry.renameAll_eq_map (es : List Entry) :
    Entry.renameAll s es = es.map (Entry.rename s) := by
  induction es with
  | nil => rfl
  | cons e es ih => rw [renameAll, ih, List.map_cons]

namespace Entry

@[simp] theorem key_rename (e : Entry) : (e.rename s).key = e.key := by
  cases e <;> simp [rename, key]

@[simp] theorem nodes_rename (e : Entry) : (e.rename s).nodes = e.nodes.map (Node.rename s) := by
  cases e <;> simp [rename, nodes, Node.renameAll_eq_map]

end Entry

namespace Node

variable (n : Node)

@[simp] theorem entries_rename : (n.rename s).entries = n.entries.map (Entry.rename s) := by
  cases n
  rw [rename, entries, entries, Entry.renameAll_eq_map]

theorem entry?_rename (key : String) :
    Node.entry? (n.rename s) key = (Node.entry? n key).map (Entry.rename s) := by
  unfold entry?
  rw [entries_rename, List.find?_map]
  congr 2
  funext e
  simp

theorem attr?_rename (name : String) :
    (n.rename s).attr? name = (n.attr? name).map (renamedValue s (attrKey name)) := by
  unfold attr?
  rw [entry?_rename]
  cases he : n.entry? (attrKey name) with
  | none => rfl
  | some e =>
    have hkey : e.key = attrKey name := by simpa using List.find?_some he
    cases e with
    | text key value =>
      simp only [Entry.key] at hkey
      simp only [Option.map_some, Entry.rename, hkey]
    | one _ _ => simp [Entry.rename]
    | many _ _ => simp [Entry.rename]

theorem children_rename (tag : String) :
    (n.rename s).children tag = (n.children tag).map (rename s) := by
  unfold children
  rw [entry?_rename]
  cases n.entry? tag with
  | none => rfl
  | some e => simp

@[simp] theorem id?_rename : (n.rename s).id? = n.id?.map s := by
  rw [id?, attr?_rename, id?]
  congr 1

/-- Attributes without identifiers stay. -/
theorem attr?_rename_of_ne {name : String} (hid : attrKey name ≠ "@_xmi:id")
    (htype : attrKey name ≠ "@_type") (hgeneral : attrKey name ≠ "@_general")
    (htokens : attrKey name ≠ "@_navigableOwnedEnd") :
    (n.rename s).attr? name = n.attr? name := by
  rw [attr?_rename]
  have hvalue : renamedValue s (attrKey name) = id := by
    funext value
    simp [renamedValue, hid, htype, hgeneral, htokens]
  rw [hvalue, Option.map_id]
  rfl

@[simp] theorem kind?_rename : (n.rename s).kind? = n.kind? :=
  n.attr?_rename_of_ne s (by decide) (by decide) (by decide) (by decide)

@[simp] theorem name?_rename : (n.rename s).name? = n.name? :=
  n.attr?_rename_of_ne s (by decide) (by decide) (by decide) (by decide)

end Node

mutual

theorem Node.preorder_rename : ∀ n : Node, (n.rename s).preorder = n.preorder.map (Node.rename s)
  | .mk es => by
      rw [Node.rename, Node.preorder, Entry.preorder_rename es, Node.preorder, List.map_cons,
        Node.rename]

theorem Entry.preorder_rename : ∀ es : List Entry,
    Entry.preorder (Entry.renameAll s es) = (Entry.preorder es).map (Node.rename s)
  | [] => rfl
  | e :: es => by
      rw [Entry.renameAll, Entry.preorder, Entry.descend_rename e, Entry.preorder_rename es,
        Entry.preorder, List.map_append]

theorem Entry.descend_rename : ∀ e : Entry, (e.rename s).descend = e.descend.map (Node.rename s)
  | .text _ _ => rfl
  | .one _ n => by rw [Entry.rename, Entry.descend, Node.preorder_rename n, Entry.descend]
  | .many _ ns => by rw [Entry.rename, Entry.descend, Node.preorderAll_rename ns, Entry.descend]

theorem Node.preorderAll_rename : ∀ ns : List Node,
    Node.preorderAll (Node.renameAll s ns) = (Node.preorderAll ns).map (Node.rename s)
  | [] => rfl
  | n :: ns => by
      rw [Node.renameAll, Node.preorderAll, Node.preorder_rename n, Node.preorderAll_rename ns,
        Node.preorderAll, List.map_append]

end

/-- A renamed identifier leads to the renamed node, also when identifiers are repeated. -/
theorem IdIndex.get?_renameAll {s : String → String} (hs : Function.Injective s)
    (roots : List Node) (id : String) : (ofRoots (Node.renameAll s roots)).get? (s id) =
      ((ofRoots roots).get? id).map (Node.rename s) := by
  rw [get?_ofRoots, get?_ofRoots, Node.preorderAll_rename, ← List.map_reverse, List.find?_map]
  congr 2
  funext n
  cases hn : n.id? with
  | none => simp [hn]
  | some x => simp [hn, hs.eq_iff]

end
end ClassGrammar
