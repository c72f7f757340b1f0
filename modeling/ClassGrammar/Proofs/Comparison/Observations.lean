import ClassGrammar.Proofs.Nodes.DistinctKeys
import ClassGrammar.Proofs.Comparison.ReidentifiedGrammars
import Mathlib.Data.Multiset.Bind
import Mathlib.Data.Multiset.Filter

/-! Nodes that look the same. A run looks at a few attributes of a node and at its children tag by
tag; how the entries of a node are stored, and all else that a node says, leaves no trace. -/
namespace ClassGrammar

namespace Node

/-- The attributes that a run looks at. -/
def observed : List String :=
  ["xmi:id", "xmi:type", "name", "type", "general", "aggregation", "navigableOwnedEnd", "value",
    "href"]

/-- Whether two trees look the same: by the attributes that are observed, and tag by tag. -/
inductive Similar : Node → Node → Prop
  | intro {n n' : Node} (attributes : ∀ name ∈ observed, n'.attr? name = n.attr? name)
      (children : ∀ tag, List.Forall₂ Similar (n.children tag) (n'.children tag)) : Similar n n'

namespace Similar

variable {n n' : Node}

theorem attributes (h : n.Similar n') : ∀ name ∈ observed, n'.attr? name = n.attr? name := by
  cases h
  assumption

theorem children (h : n.Similar n') (tag : String) :
    List.Forall₂ Similar (n.children tag) (n'.children tag) := by
  cases h with
  | intro _ children => exact children tag

theorem id? (h : n.Similar n') : n'.id? = n.id? := h.attributes "xmi:id" (by decide)

theorem sameAttributes (h : n.Similar n') : n.SameAttributes id n' := by
  have hsame {name : String} (hmem : name ∈ observed) :
      n'.attr? name = (n.attr? name).map id := by
    rw [h.attributes name hmem, Option.map_id_fun, id_eq]
  exact {
    id := hsame (by decide)
    type := hsame (by decide)
    general := hsame (by decide)
    tokens := by
      rw [navigableTokens, h.attributes _ (by decide), navigableTokens, List.map_id_fun, id_eq]
    kind := h.attributes _ (by decide)
    name := h.attributes _ (by decide)
    aggregation := h.attributes _ (by decide)
    value := h.attributes _ (by decide)
    href := h.attributes _ (by decide) }

/-- Nodes that look the same are the same under their own identifiers. -/
theorem alike (h : n.Similar n') : n.Alike id n' := by
  induction n using induction_children generalizing n' with
  | h n ih =>
    refine .intro h.sameAttributes fun tag => ?_
    exact forall₂_imp_of_mem (h.children tag) fun c hc _ hr => ih tag c hc hr

end Similar

section Keys

variable {n n' : Node}

/-- Distinct tags that cover the keys of a node lead to all of its children. -/
theorem childNodes_perm_flatMap (hn : n.keys.Nodup) {tags : List String} (htags : tags.Nodup)
    (hcover : n.keys ⊆ tags) : n.childNodes.Perm (tags.flatMap n.children) := by
  have hused : (tags.filter (· ∈ n.keys)).Perm n.keys := by
    refine (List.perm_ext_iff_of_nodup (htags.filter _) hn).mpr fun tag => ?_
    simp only [List.mem_filter, decide_eq_true_eq]
    exact ⟨And.right, fun h => ⟨hcover h, h⟩⟩
  have hunused : (tags.filter fun tag => !decide (tag ∈ n.keys)).flatMap n.children = [] := by
    rw [List.flatMap_eq_nil_iff]
    intro tag htag
    exact children_eq_nil (by simpa using (List.mem_filter.mp htag).2)
  have hsplit := (List.filter_append_perm (· ∈ n.keys) tags).flatMap_right n.children
  rw [List.flatMap_append, hunused, List.append_nil] at hsplit
  rw [childNodes_eq_flatMap hn]
  exact (hused.flatMap_right n.children).symm.trans hsplit

theorem rel_of_forall₂ {α β : Type} {R : α → β → Prop} {l : List α} {l' : List β}
    (h : List.Forall₂ R l l') : Multiset.Rel R l l' := by
  induction h with
  | nil => exact .zero
  | cons hr _ ih => exact .cons hr ih

/-- Children that are related tag by tag are related one to one, in whatever order they stand. -/
theorem rel_childNodes {R : Node → Node → Prop} (hn : n.keys.Nodup) (hn' : n'.keys.Nodup)
    (h : ∀ tag, List.Forall₂ R (n.children tag) (n'.children tag)) :
    Multiset.Rel R n.childNodes n'.childNodes := by
  have htags : (n.keys ∪ n'.keys).Nodup := hn'.union n.keys
  have hperm : (n.childNodes : Multiset Node) = ((n.keys ∪ n'.keys).flatMap n.children) :=
    Multiset.coe_eq_coe.mpr
      (childNodes_perm_flatMap hn htags fun tag htag => List.mem_union_left htag _)
  have hperm' : (n'.childNodes : Multiset Node) = ((n.keys ∪ n'.keys).flatMap n'.children) :=
    Multiset.coe_eq_coe.mpr
      (childNodes_perm_flatMap hn' htags fun tag htag => List.mem_union_right _ htag)
  rw [hperm, hperm']
  refine rel_of_forall₂ (List.rel_flatMap (R := Eq) ?_ ?_)
  · exact List.forall₂_same.mpr fun _ _ => rfl
  · rintro tag _ rfl
    exact h tag

/-- The trees of nodes that look the same hold nodes that look the same, each as often. -/
theorem Similar.preorder (h : n.Similar n') (hn : n.DistinctKeys) (hn' : n'.DistinctKeys) :
    Multiset.Rel Similar n.preorder n'.preorder := by
  induction n using induction_children generalizing n' with
  | h n ih =>
    obtain ⟨hkeys, hbelow⟩ := distinctKeys_iff.mp hn
    obtain ⟨hkeys', hbelow'⟩ := distinctKeys_iff.mp hn'
    have hchildren : Multiset.Rel (fun c c' : Node => c.DistinctKeys → c'.DistinctKeys →
        Multiset.Rel Similar c.preorder c'.preorder) n.childNodes n'.childNodes :=
      rel_childNodes hkeys hkeys' fun tag =>
        forall₂_imp_of_mem (h.children tag) fun c hc _ hr => ih tag c hc hr
    have htrees : Multiset.Rel (fun c c' : Node => Multiset.Rel Similar c.preorder c'.preorder)
        n.childNodes n'.childNodes :=
      hchildren.mono fun c hc c' hc' hr => hr (hbelow c hc) (hbelow' c' hc')
    have hall := Multiset.rel_bind (f := fun c : Node => (c.preorder : Multiset Node))
      (g := fun c : Node => (c.preorder : Multiset Node)) (fun _ _ hr => hr) htrees
    rw [Multiset.coe_bind, Multiset.coe_bind] at hall
    rw [n.preorder_eq, n'.preorder_eq]
    exact .cons h hall

theorem rel_preorderAll {roots roots' : List Node} (h : List.Forall₂ Similar roots roots')
    (hkeys : ∀ n ∈ roots, n.DistinctKeys) (hkeys' : ∀ n ∈ roots', n.DistinctKeys) :
    Multiset.Rel Similar (preorderAll roots) (preorderAll roots') := by
  induction h with
  | nil => exact .zero
  | @cons n n' rest rest' hn _ ih =>
    rw [List.forall_mem_cons] at hkeys hkeys'
    have hrest := ih hkeys.2 hkeys'.2
    rw [preorderAll, preorderAll, ← Multiset.coe_add, ← Multiset.coe_add]
    exact (hn.preorder hkeys.1 hkeys'.1).add hrest

/-- Whether two trees look the same down to a depth that they do not reach. -/
def SimilarWithin : Nat → Node → Node → Prop
  | 0, _, _ => False
  | depth + 1, n, n' => (∀ name ∈ observed, n'.attr? name = n.attr? name) ∧
      ∀ tag ∈ n.keys ++ n'.keys,
        List.Forall₂ (SimilarWithin depth) (n.children tag) (n'.children tag)

instance decidableSimilarWithin : ∀ depth (n n' : Node), Decidable (SimilarWithin depth n n')
  | 0, _, _ => inferInstanceAs (Decidable False)
  | depth + 1, n, n' =>
      have := decidableSimilarWithin depth
      inferInstanceAs (Decidable ((∀ name ∈ observed, n'.attr? name = n.attr? name) ∧
        ∀ tag ∈ n.keys ++ n'.keys,
          List.Forall₂ (SimilarWithin depth) (n.children tag) (n'.children tag)))

theorem SimilarWithin.similar {depth : Nat} (h : SimilarWithin depth n n') : n.Similar n' := by
  induction depth generalizing n n' with
  | zero => exact h.elim
  | succ depth ih =>
    refine .intro h.1 fun tag => ?_
    by_cases htag : tag ∈ n.keys ++ n'.keys
    · exact (h.2 tag htag).imp fun _ _ => ih
    · rw [List.mem_append, not_or] at htag
      rw [children_eq_nil htag.1, children_eq_nil htag.2]
      exact .nil

end Keys

section Roots

variable {roots roots' : List Node}

/-- Trees that look the same carry the same identifiers, each as often. -/
theorem ids_perm (h : Multiset.Rel Similar (preorderAll roots) (preorderAll roots')) :
    (ids roots).Perm (ids roots') := by
  have hmap : Multiset.map id? (preorderAll roots) = Multiset.map id? (preorderAll roots') :=
    Multiset.rel_eq.mp (Multiset.rel_map.mpr (h.mono fun _ _ _ _ hr => hr.id?.symm))
  have hids (ns : List Node) : (ids ns : Multiset String) =
      Multiset.filterMap id (Multiset.map id? (preorderAll ns)) := by
    rw [Multiset.filterMap_map, ids, ← Multiset.filterMap_coe]
    rfl
  rw [← Multiset.coe_eq_coe, hids, hids, hmap]

theorem DistinctIds.get?_eq_some (h : DistinctIds roots) {n : Node} {id : String}
    (hn : n ∈ preorderAll roots) (hid : n.id? = some id) :
    (IdIndex.ofRoots roots).get? id = some n := by
  cases hg : (IdIndex.ofRoots roots).get? id with
  | none =>
    rw [IdIndex.get?_ofRoots, List.find?_eq_none] at hg
    simpa [hid] using hg n (List.mem_reverse.mpr hn)
  | some m =>
    rw [h.eq_of_id (IdIndex.mem_of_get?_ofRoots hg) hn (IdIndex.get?_mem hg).2 hid]

/-- Nodes that look the same are found under the same identifiers. -/
theorem get?_similar (h : Multiset.Rel Similar (preorderAll roots) (preorderAll roots'))
    (hids : DistinctIds roots) (key : String) :
    Option.Rel (Alike id) ((IdIndex.ofRoots roots).get? key)
      ((IdIndex.ofRoots roots').get? key) := by
  have hids' : DistinctIds roots' := (ids_perm h).nodup_iff.mp hids
  cases hg : (IdIndex.ofRoots roots).get? key with
  | some n =>
    obtain ⟨n', hn', hr⟩ :=
      Multiset.exists_mem_of_rel_of_mem h (Multiset.mem_coe.mpr (IdIndex.mem_of_get?_ofRoots hg))
    rw [hids'.get?_eq_some (Multiset.mem_coe.mp hn') (hr.id?.trans (IdIndex.get?_mem hg).2)]
    exact .some hr.alike
  | none =>
    cases hg' : (IdIndex.ofRoots roots').get? key with
    | none => exact .none
    | some n' =>
      obtain ⟨n, hn, hr⟩ := Multiset.exists_mem_of_rel_of_mem (Multiset.rel_flip.mpr h)
        (Multiset.mem_coe.mpr (IdIndex.mem_of_get?_ofRoots hg'))
      have hid : n.id? = some key := (Similar.id? hr).symm.trans (IdIndex.get?_mem hg').2
      rw [hids.get?_eq_some (Multiset.mem_coe.mp hn) hid] at hg
      cases hg

theorem alikeRoots_of_similar (h : List.Forall₂ Similar roots roots')
    (hkeys : ∀ n ∈ roots, n.DistinctKeys) (hkeys' : ∀ n ∈ roots', n.DistinctKeys)
    (hids : DistinctIds roots) : AlikeRoots id roots roots' where
  injective := Function.injective_id
  nodes := h.imp fun _ _ hr => hr.alike
  found := get?_similar (rel_preorderAll h hkeys hkeys') hids
  apart _ _ _ _ := Iff.rfl

end Roots

end Node

namespace Document

/-- Whether the bytes are those of a document with these members. -/
structure Lists (bytes : Bytes) (roots : List Node) : Prop where
  checked : check bytes = .ok ()
  members : ∃ d, read bytes = .ok d ∧ d.packagedElements = .ok roots

namespace Lists

variable {bytes : Bytes} {roots : List Node}

theorem distinctKeys (h : Lists bytes roots) : ∀ n ∈ roots, n.DistinctKeys := by
  obtain ⟨d, hread, hmembers⟩ := h.members
  exact distinctKeys_of_packagedElements hread hmembers

theorem transformDocument (h : Lists bytes roots) (settings : Settings) :
    transformDocument settings bytes = transform settings roots := by
  obtain ⟨d, hread, hmembers⟩ := h.members
  rw [ClassGrammar.transformDocument, h.checked, hread]
  exact congrArg (· >>= transform settings) hmembers

end Lists
end Document

/-- A run sees only what is observed of a node. Nodes that look the same, among which no identifier
is repeated, have the same grammar or the same fault. How entries are ordered, whether a single
child stands in a list, and what else a node says has no influence. The keys in a node have to be
distinct; in the nodes of a document they are. -/
theorem transform_similar {roots roots' : List Node} (h : List.Forall₂ Node.Similar roots roots')
    (hids : Node.DistinctIds roots) (settings : Settings) :
    ((∀ n ∈ roots, n.DistinctKeys) → (∀ n ∈ roots', n.DistinctKeys) →
      transform settings roots = transform settings roots') ∧
    ∀ bytes bytes', Document.Lists bytes roots → Document.Lists bytes' roots' →
      transformDocument settings bytes = transformDocument settings bytes' := by
  have hsame (hkeys : ∀ n ∈ roots, n.DistinctKeys) (hkeys' : ∀ n ∈ roots', n.DistinctKeys) :
      transform settings roots = transform settings roots' := by
    have halike := transform_alike (Node.alikeRoots_of_similar h hkeys hkeys' hids) settings
      fun _ _ _ _ _ _ _ _ _ _ _ => Iff.rfl
    exact halike.eq fun _ _ hf => hf.text fun _ => rfl
  refine ⟨hsame, fun bytes bytes' hb hb' => ?_⟩
  rw [hb.transformDocument, hb'.transformDocument]
  exact hsame hb.distinctKeys hb'.distinctKeys

/-- The nodes of `machine` with entries in another order, children stored in other ways, and remarks
that no run looks at. -/
def rearranged : List Node := [
  .mk [.many "ownedEnd" [
      .mk [.many "upperValue" [.mk [.text "@_value" "*"]], .text "@_type" "step",
        .text "@_xmi:id" "in"],
      .mk [.text "@_visibility" "private", .text "@_name" "target", .text "@_xmi:id" "out",
        .text "@_type" "state"]],
    .text "@_navigableOwnedEnd" "in out", .text "@_xmi:type" "uml:Association",
    .many "ownedComment" []],
  .mk [.many "ownedAttribute" [.mk [.text "@_type" "kind", .text "@_name" "kind"]],
    .text "@_name" "State", .text "@_xmi:type" "uml:Class", .text "@_xmi:id" "state"],
  .mk [.text "@_isAbstract" "true", .text "@_xmi:type" "uml:Class",
    .one "ownedAttribute" (.mk [.text "@_name" "next", .text "@_type" "step"]),
    .text "@_xmi:id" "step", .one "generalization" (.mk [.text "@_general" "state"]),
    .text "@_name" "Step"],
  .mk [.text "@_xmi:type" "uml:Enumeration", .text "@_xmi:id" "kind",
    .many "ownedLiteral" [.mk [.text "@_name" "final", .text "@_visibility" "package"]],
    .text "@_name" "Kind"]]

theorem machine_rearranged : List.Forall₂ Node.Similar machine rearranged ∧
    (∀ n ∈ machine, n.DistinctKeys) ∧ (∀ n ∈ rearranged, n.DistinctKeys) ∧
    Node.DistinctIds machine ∧ transform {} rearranged = .ok machineGrammar := by
  have hwithin : List.Forall₂ (Node.SimilarWithin 4) machine rearranged := by decide +kernel
  have hsimilar := hwithin.imp fun _ _ => Node.SimilarWithin.similar
  have hkeys : ∀ n ∈ machine, n.DistinctKeys := by decide +kernel
  have hkeys' : ∀ n ∈ rearranged, n.DistinctKeys := by decide +kernel
  have hids : Node.DistinctIds machine := by decide +kernel
  have hsame := (transform_similar hsimilar hids {}).1 hkeys hkeys'
  exact ⟨hsimilar, hkeys, hkeys', hids, hsame.symm.trans transform_machine⟩

end ClassGrammar
