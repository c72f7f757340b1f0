import ClassGrammar.Proofs.Models.ReferenceKeys

/-! The metaclasses that references lead to. A reference is checked at the node that the index has
for its key, but its handle comes from the table, where the key may be that of another source. The
metaclass is right when elements of different sorts do not share keys. -/
namespace ClassGrammar

namespace Form

/-- Whether elements can be the type of a property: all but associations. -/
def isType : Form → Bool
  | association _ _ _ => false
  | _ => true

def isClassifier : Form → Bool
  | classifier _ _ _ => true
  | _ => false

end Form

namespace Node

/-- The nodes that are read as elements wherever they are referred to. -/
def elementNodes (roots : List Node) : List Node :=
  (preorderAll roots).filter fun n => (TypeKind.ofNode? n).isSome || n.isAssociation

/-- Whether no key is shared between elements of different sorts: elements with one identifier are
all classes, all associations or all other types, and the identifiers of classes and associations
are no references of library types. -/
structure SortsApart (roots : List Node) : Prop where
  agree : ∀ n ∈ elementNodes roots, ∀ m ∈ elementNodes roots, n.id?.isSome → n.id? = m.id? →
    n.isClass = m.isClass ∧ n.isAssociation = m.isAssociation
  foreign : ∀ n ∈ elementNodes roots, n.isClass || n.isAssociation →
    ∀ href ∈ libraryHrefs roots, n.id? ≠ some href

instance (roots : List Node) : Decidable (SortsApart roots) :=
  decidable_of_iff
    ((∀ n ∈ elementNodes roots, ∀ m ∈ elementNodes roots, n.id?.isSome → n.id? = m.id? →
        n.isClass = m.isClass ∧ n.isAssociation = m.isAssociation) ∧
      ∀ n ∈ elementNodes roots, n.isClass || n.isAssociation →
        ∀ href ∈ libraryHrefs roots, n.id? ≠ some href)
    ⟨fun h => ⟨h.1, h.2⟩, fun h => ⟨h.agree, h.foreign⟩⟩

theorem mem_elementNodes {roots : List Node} {n : Node} : n ∈ elementNodes roots ↔
    n ∈ preorderAll roots ∧ ((TypeKind.ofNode? n).isSome || n.isAssociation) = true :=
  List.mem_filter

theorem isElement_of_kindText {n : Node} {f : Form} (h : n.kind? = some f.kindText) :
    ((TypeKind.ofNode? n).isSome || n.isAssociation) = true := by
  unfold TypeKind.ofNode? isAssociation
  rw [h]
  cases f with
  | classifier isInterface _ _ => cases isInterface <;> rfl
  | _ => rfl

end Node

/-- Whether the metaclasses in a model are those that a reference may lead to: the types of all
properties are types, and the targets of all generalizations are classes. -/
structure Model.WellTyped (m : Model) : Prop where
  types : ∀ e ∈ m.elements, ∀ p ∈ e.properties,
    (m.elements[p.type]?).any (·.form.isType) = true
  targets : ∀ e ∈ m.elements, ∀ g ∈ e.generalizations, ∀ t ∈ g.targets,
    (m.elements[t]?).any (·.form.isClassifier) = true

instance (m : Model) : Decidable m.WellTyped :=
  decidable_of_iff
    ((∀ e ∈ m.elements, ∀ p ∈ e.properties, (m.elements[p.type]?).any (·.form.isType) = true) ∧
      ∀ e ∈ m.elements, ∀ g ∈ e.generalizations, ∀ t ∈ g.targets,
        (m.elements[t]?).any (·.form.isClassifier) = true)
    ⟨fun h => ⟨h.1, h.2⟩, fun h => ⟨h.types, h.targets⟩⟩

theorem Form.isType_of_kindText {f : Form} (h : f.kindText ≠ "uml:Association") :
    f.isType = true := by
  cases f with
  | association _ _ _ => exact absurd rfl h
  | _ => rfl

theorem Form.isClassifier_of_kindText {f : Form} {kind : TypeKind} (h : f.kindText = kind.text)
    (hclass : kind.isClass = true) : f.isClassifier = true := by
  cases f with
  | classifier _ _ _ => rfl
  | _ => cases kind <;> simp_all [kindText, TypeKind.text, TypeKind.isClass]

theorem TypeKind.text_ne_association (kind : TypeKind) : kind.text ≠ "uml:Association" := by
  cases kind <;> decide

namespace Model.Bears

variable {roots : List Node} {m : Model} {key : String} {h : Handle} {n : Node}

/-- An element is a type when its key is the identifier of a type or the reference of one. -/
theorem isType (hb : m.Bears roots key h) (hs : Node.SortsApart roots)
    (hkey : key ∈ Node.libraryHrefs roots ∨
      ∃ n ∈ Node.preorderAll roots, n.id? = some key ∧ (TypeKind.ofNode? n).isSome) :
    (m.elements[h]?).any (·.form.isType) = true := by
  obtain ⟨src, e, hsrc, hsrckey, he, hkind⟩ := hb
  rw [he]
  apply Form.isType_of_kindText
  intro htext
  cases src with
  | library href kind =>
    rw [htext] at hkind
    exact kind.text_ne_association (Option.some.inj hkind)
  | node m =>
    have hm : m ∈ Node.elementNodes roots :=
      Node.mem_elementNodes.mpr ⟨hsrc.mem, Node.isElement_of_kindText hkind⟩
    have ha : m.isAssociation = true := by
      have hkind' : m.kind? = some "uml:Association" := htext ▸ hkind
      simp [Node.isAssociation, hkind']
    rcases hkey with hhref | ⟨n, hn, hid, htype⟩
    · exact hs.foreign m hm (by simp [ha]) key hhref hsrckey
    · have hn' : n ∈ Node.elementNodes roots :=
        Node.mem_elementNodes.mpr ⟨hn, by simp [htype]⟩
      obtain ⟨-, hsame⟩ := hs.agree n hn' m hm (by simp [hid]) (hid.trans hsrckey.symm)
      rw [Node.ofNode?_of_isAssociation (hsame.trans ha)] at htype
      cases htype

/-- An element is a class when its key is the identifier of a class. -/
theorem isClassifier (hb : m.Bears roots key h) (hs : Node.SortsApart roots)
    (hn : n ∈ Node.preorderAll roots) (hid : n.id? = some key) (hclass : n.isClass = true) :
    (m.elements[h]?).any (·.form.isClassifier) = true := by
  obtain ⟨src, e, hsrc, hsrckey, he, hkind⟩ := hb
  rw [he]
  have hn' : n ∈ Node.elementNodes roots := by
    obtain ⟨kind, hk, -⟩ := Node.isClass_eq_true.mp hclass
    exact Node.mem_elementNodes.mpr ⟨hn, by simp [hk]⟩
  cases src with
  | library href kind =>
    have hhref : href ∈ Node.libraryHrefs roots := by
      rcases hsrc with hc | ⟨_, _, hne⟩
      · exact hc
      · cases hne
    cases hsrckey
    exact absurd hid (hs.foreign n hn' (by simp [hclass]) key hhref)
  | node m =>
    have hm : m ∈ Node.elementNodes roots :=
      Node.mem_elementNodes.mpr ⟨hsrc.mem, Node.isElement_of_kindText hkind⟩
    obtain ⟨hsame, -⟩ := hs.agree n hn' m hm (by simp [hid]) (hid.trans hsrckey.symm)
    obtain ⟨kind, hk, hkclass⟩ := Node.isClass_eq_true.mp (hsame.symm.trans hclass)
    have htext : e.form.kindText = kind.text :=
      Option.some.inj (hkind.symm.trans (TypeKind.kind?_of_ofNode? hk))
    exact Form.isClassifier_of_kindText htext hkclass

end Model.Bears

namespace Node

variable {roots : List Node} {m : Model} {n c : Node} {h : Handle}

theorem Types.isType (ht : c.Types roots m h) (hs : SortsApart roots) (hn : n ∈ preorderAll roots)
    (hc : c ∈ n.children "ownedAttribute" ++ n.children "ownedEnd") :
    (m.elements[h]?).any (·.form.isType) = true := by
  obtain ⟨key, hkey, hb⟩ := ht.bears
  refine hb.isType hs ?_
  cases hid : c.attr? "type" with
  | none =>
    have hhref : c.libraryHref? = some key := by
      simp only [typeKey?, hid] at hkey
      simpa only [libraryHref?, hid] using hkey
    exact .inl (mem_libraryHrefs hn hc hhref)
  | some id =>
    obtain ⟨target, htyped⟩ := ht.resolved id hid
    cases htyped with
    | node key' found isType =>
      simp only [typeKey?, key', Option.some.injEq] at hkey
      subst hkey
      exact .inr ⟨target, IdIndex.mem_of_get?_ofRoots found, (IdIndex.get?_mem found).2,
        by simp [isType]⟩

theorem Generalizes.isClassifier (hg : c.Generalizes roots m h) (hs : SortsApart roots) :
    (m.elements[h]?).any (·.form.isClassifier) = true := by
  obtain ⟨key, hkey, hb⟩ := hg.bears
  obtain ⟨target, hspec⟩ := hg.resolved
  cases hspec with
  | node key' found isClass =>
    obtain rfl := Option.some.inj (hkey.symm.trans key')
    exact hb.isClassifier hs (IdIndex.mem_of_get?_ofRoots found) (IdIndex.get?_mem found).2 isClass

end Node

namespace Model

/-- In what is read from nodes whose keys are not shared between sorts, properties have types and
generalizations lead to classes. Identifiers may be repeated within a sort. -/
theorem wellTyped_of_ofNodes {roots : List Node} {m : Model} (hs : Node.SortsApart roots)
    (h : Model.ofNodes (.ofRoots roots) roots = .ok m) : m.WellTyped := by
  have hr := Draft.refers_of_ofNodes h
  constructor
  · intro e he p hp
    obtain ⟨a, ha⟩ := List.getElem?_of_mem he
    obtain ⟨n, hn, c, hc, ht⟩ := (hr a e ha).types p hp
    exact ht.isType hs hn hc
  · intro e he g hg t ht
    obtain ⟨a, ha⟩ := List.getElem?_of_mem he
    obtain ⟨c, hc⟩ := (hr a e ha).targets g hg t ht
    exact hc.isClassifier hs

theorem household_wellTyped : Node.SortsApart householdNodes ∧
    Model.ofNodes (.ofRoots householdNodes) householdNodes = .ok household ∧
      household.WellTyped := by
  have hs : Node.SortsApart householdNodes := by decide +kernel
  have hread : Model.ofNodes (.ofRoots householdNodes) householdNodes = .ok household := by
    decide +kernel
  exact ⟨hs, hread, wellTyped_of_ofNodes hs hread⟩

/-- An association that comes before a class with the same identifier. The type of a property is
checked at the class, which the index has, and its handle is that of the association. -/
def mistakenType : List Node := [
  .mk [.text "@_xmi:type" "uml:Association", .text "@_xmi:id" "x", .text "@_navigableOwnedEnd" "e",
    .many "ownedEnd" [
      .mk [.text "@_xmi:id" "e", .text "@_name" "e", .text "@_type" "c"],
      .mk [.text "@_name" "f", .text "@_type" "c"]]],
  .mk [.text "@_xmi:type" "uml:Class", .text "@_xmi:id" "c", .text "@_name" "C"],
  .mk [.text "@_xmi:type" "uml:Class", .text "@_xmi:id" "x", .text "@_name" "X"],
  .mk [.text "@_xmi:type" "uml:Class", .text "@_xmi:id" "d", .text "@_name" "D",
    .one "ownedAttribute" (.mk [.text "@_name" "q", .text "@_type" "x"])]]

/-- A data type that comes before a class with the same identifier. -/
def mistakenGeneral : List Node := [
  .mk [.text "@_xmi:type" "uml:DataType", .text "@_xmi:id" "x", .text "@_name" "String"],
  .mk [.text "@_xmi:type" "uml:Class", .text "@_xmi:id" "x", .text "@_name" "Base"],
  .mk [.text "@_xmi:type" "uml:Class", .text "@_xmi:id" "d", .text "@_name" "D",
    .one "generalization" (.mk [.text "@_general" "x"])]]

theorem mistaken_references :
    (∃ m, Model.ofNodes (.ofRoots mistakenType) mistakenType = .ok m ∧
      ∃ e ∈ m.elements, ∃ p ∈ e.properties,
        (m.element p.type).form.metaclass = "Association") ∧
    ∃ m, Model.ofNodes (.ofRoots mistakenGeneral) mistakenGeneral = .ok m ∧
      ∃ e ∈ m.elements, ∃ g ∈ e.generalizations, ∃ t ∈ g.targets,
        (m.element t).form.metaclass = "DataType" := by
  refine ⟨⟨⟨[
    ⟨some "c", "C", .publicAccess, .classifier false [] []⟩,
    ⟨some "x", "", .publicAccess, .association
      ⟨some "e", "e", .publicAccess, .one, .plain, 0, some 1⟩
      ⟨none, "f", .publicAccess, .one, .plain, 0, some 1⟩ ["e"]⟩,
    ⟨some "d", "D", .publicAccess, .classifier false
      [⟨none, "q", .publicAccess, .one, .plain, 1, none⟩] []⟩],
    [1, 0, 1, 2], [("d", 2), ("x", 1), ("c", 0)]⟩, by decide +kernel, by decide +kernel⟩,
    ⟨[
    ⟨some "x", "String", .publicAccess, .dataType⟩,
    ⟨some "d", "D", .publicAccess, .classifier false [] [⟨none, [0]⟩]⟩],
    [0, 0, 1], [("d", 1), ("x", 0)]⟩, by decide +kernel, by decide +kernel⟩

end Model
end ClassGrammar
