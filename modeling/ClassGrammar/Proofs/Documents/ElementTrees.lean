import ClassGrammar.Proofs.Nodes.DistinctKeys
import Mathlib.Data.List.Forall2

/-! Elements of documents as trees, and the nodes that are built of them: attributes first, then one
child after the other. Under each tag such a node has the inner elements of this tag, in order. -/
namespace ClassGrammar

namespace Node

variable {n : Node} {tag name : String}

/-- Whether a tag cannot be taken for the key of an attribute. -/
def IsTag (tag : String) : Prop := ¬ "@_".toList <+: tag.toList

instance decidableIsTag (tag : String) : Decidable (IsTag tag) :=
  inferInstanceAs (Decidable (¬ _))

theorem IsTag.ne_attrKey (h : IsTag tag) (name : String) : tag ≠ attrKey name := by
  rintro rfl
  exact h ⟨name.toList, String.toList_append.symm⟩

theorem attr?_pushChild (htag : IsTag tag) (child : Node) (name : String) :
    (n.pushChild tag child).attr? name = n.attr? name := by
  unfold attr? pushChild
  rw [entry?_put, key_pushed, if_neg (htag.ne_attrKey name).symm]

theorem attr?_setAttr (n : Node) (name value key : String) :
    (n.setAttr name value).attr? key = if key = name then some value else n.attr? key := by
  unfold attr? setAttr
  rw [entry?_put]
  by_cases h : key = name <;> simp [h, attrKey, Entry.key]

theorem entry?_setAttr (htag : IsTag tag) (name value : String) :
    Node.entry? (n.setAttr name value) tag = n.entry? tag := by
  rw [setAttr, entry?_put, Entry.key, if_neg (htag.ne_attrKey name)]

/-- The entry that holds the children of a tag, if there are any. -/
def stored? (tag : String) : List Node → Option Entry
  | [] => none
  | [n] => some (.one tag n)
  | ns => some (.many tag ns)

theorem some_pushed_stored? (tag : String) (c : Node) (cs : List Node) :
    some (pushed tag c (stored? tag cs)) = stored? tag (cs ++ [c]) := by
  rcases cs with _ | ⟨_, _ | _⟩ <;> rfl

/-- Whether a child that has its tag alone is held as a node, and several are held as a list. -/
def Tidy (n : Node) : Prop := ∀ tag, IsTag tag → n.entry? tag = stored? tag (n.children tag)

theorem Tidy.pushChild (h : n.Tidy) (htag : IsTag tag) (child : Node) :
    (n.pushChild tag child).Tidy := by
  intro key hkey
  rw [children_pushChild, Node.pushChild, entry?_put, key_pushed]
  split
  next hsame =>
    subst hsame
    rw [h key hkey]
    exact some_pushed_stored? key child _
  next => exact h key hkey

end Node

namespace Document.Open

open Node

theorem children_nodeOf (attributes : List (String × String)) (tag : String) :
    (nodeOf attributes).children tag = [] := by
  refine nodeOf_induction (motive := fun n => n.children tag = []) attributes rfl ?_
  intro n name value hn
  rw [Node.setAttr, children_put, hn]
  exact ite_self _

theorem tidy_nodeOf (attributes : List (String × String)) : (nodeOf attributes).Tidy := by
  intro tag htag
  rw [children_nodeOf]
  refine nodeOf_induction (motive := fun n => n.entry? tag = none) attributes rfl ?_
  intro n name value hn
  rw [entry?_setAttr htag, hn]

theorem attr?_nodeOf {attributes : List (String × String)} (h : (attributes.map (·.1)).Nodup)
    (name : String) : (nodeOf attributes).attr? name = attributes.lookup name := by
  have hfold (n : Node) : (attributes.foldl (fun n a => n.setAttr a.1 a.2) n).attr? name =
      (attributes.lookup name).or (n.attr? name) := by
    induction attributes generalizing n with
    | nil => rfl
    | cons a rest ih =>
      rw [List.map_cons, List.nodup_cons] at h
      rw [List.foldl_cons, ih h.2, attr?_setAttr, List.lookup_cons]
      by_cases hname : name = a.1
      · subst hname
        have hnone : rest.lookup a.1 = none := by
          rw [List.lookup_eq_none_iff]
          intro b hb
          simpa using fun hab => h.1 (List.mem_map.mpr ⟨b, hb, hab.symm⟩)
        simp [hnone]
      · simp [hname, beq_eq_false_iff_ne.mpr hname]
  exact (hfold .empty).trans (Option.or_none)

end Document.Open

/-- An element of a document, with the elements inside it. -/
structure Tree where
  tag : String
  attributes : List (String × String)
  inner : List Tree

/-- Whether a node holds attributes and elements. Each attribute has its value, and the elements of
each tag are its children in their order; a single one stands as a node, several stand in a list. -/
inductive Node.Holds : Node → List (String × String) → List Tree → Prop
  | intro {n : Node} {attributes : List (String × String)} {forest : List Tree}
      (values : ∀ name, n.attr? name = attributes.lookup name)
      (elements : ∀ tag, List.Forall₂ (fun c t => Node.Holds c t.attributes t.inner)
        (n.children tag) (forest.filter (·.tag == tag)))
      (tidy : n.Tidy) : Node.Holds n attributes forest

namespace Tree

/-- Whether no tag can be taken for an attribute, and no element has two attributes of a name. -/
inductive Proper : Tree → Prop
  | intro {t : Tree} (tag : Node.IsTag t.tag) (names : (t.attributes.map (·.1)).Nodup)
      (inner : ∀ c ∈ t.inner, Proper c) : Proper t

theorem Proper.tag {t : Tree} : t.Proper → Node.IsTag t.tag
  | .intro tag _ _ => tag

mutual

/-- The node that a reader makes of an element. -/
def node : Tree → Node
  | ⟨_, attributes, inner⟩ => nodesInto (Document.Open.nodeOf attributes) inner

def nodesInto (n : Node) : List Tree → Node
  | [] => n
  | t :: rest => nodesInto (n.pushChild t.tag t.node) rest

end

theorem children_nodesInto (n : Node) (forest : List Tree) (tag : String) :
    (nodesInto n forest).children tag =
      n.children tag ++ (forest.filter (·.tag == tag)).map node := by
  induction forest generalizing n with
  | nil => exact (List.append_nil _).symm
  | cons t rest ih =>
    rw [nodesInto, ih, Node.children_pushChild]
    by_cases htag : tag = t.tag
    · subst htag
      simp
    · simp [htag, Ne.symm htag]

theorem attr?_nodesInto {forest : List Tree} (h : ∀ t ∈ forest, Node.IsTag t.tag) (n : Node)
    (name : String) : (nodesInto n forest).attr? name = n.attr? name := by
  induction forest generalizing n with
  | nil => rfl
  | cons t rest ih =>
    rw [List.forall_mem_cons] at h
    rw [nodesInto, ih h.2, Node.attr?_pushChild h.1]

theorem tidy_nodesInto {forest : List Tree} (h : ∀ t ∈ forest, Node.IsTag t.tag) {n : Node}
    (hn : n.Tidy) : (nodesInto n forest).Tidy := by
  induction forest generalizing n with
  | nil => exact hn
  | cons t rest ih =>
    rw [List.forall_mem_cons] at h
    exact ih h.2 (hn.pushChild h.1 t.node)

theorem holds_nodesInto {attributes : List (String × String)} {forest : List Tree}
    (hnames : (attributes.map (·.1)).Nodup) (htags : ∀ t ∈ forest, Node.IsTag t.tag)
    (hforest : ∀ t ∈ forest, t.node.Holds t.attributes t.inner) :
    (nodesInto (Document.Open.nodeOf attributes) forest).Holds attributes forest := by
  refine .intro (fun name => ?_) (fun tag => ?_)
    (tidy_nodesInto htags (Document.Open.tidy_nodeOf attributes))
  · rw [attr?_nodesInto htags, Document.Open.attr?_nodeOf hnames]
  · rw [children_nodesInto, Document.Open.children_nodeOf, List.nil_append,
      List.forall₂_map_left_iff, List.forall₂_same]
    exact fun t ht => hforest t (List.mem_of_mem_filter ht)

theorem Proper.holds {t : Tree} (h : t.Proper) : t.node.Holds t.attributes t.inner := by
  induction h with
  | @intro t _ names inner ih =>
    rw [show t.node = nodesInto (Document.Open.nodeOf t.attributes) t.inner from by cases t; rfl]
    exact holds_nodesInto names (fun c hc => (inner c hc).tag) ih

end Tree

end ClassGrammar
