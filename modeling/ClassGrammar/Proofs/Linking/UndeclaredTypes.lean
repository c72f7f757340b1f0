import ClassGrammar.Proofs.Linking.DeclaredHandles

/-! Types without a declaration. An outline keeps only the names of the elements that it refers to,
so linking refuses an undeclared element unless something else is declared under its name, and then
takes that for it. -/
namespace ClassGrammar

/-- Primitive types and data types with a known name stand for types of the grammar language. -/
def Element.isPrimitive (e : Element) : Bool :=
  match e.form with
  | .dataType => (Primitive.ofTypeName? e.name).isSome
  | .primitiveType => (Primitive.ofTypeName? e.name).isSome
  | _ => false

theorem SimpleType.ofElement_of_not_isPrimitive {e : Element} (h : e.isPrimitive = false) :
    SimpleType.ofElement e = .named ⟨e.name, none⟩ := by
  cases hf : e.form with
  | dataType =>
    have hnone : Primitive.ofTypeName? e.name = none := by simpa [Element.isPrimitive, hf] using h
    simp [ofElement, ofElement.ofTypeName, hf, hnone]
  | primitiveType =>
    have hnone : Primitive.ofTypeName? e.name = none := by simpa [Element.isPrimitive, hf] using h
    simp [ofElement, ofElement.ofTypeName, hf, hnone]
  | _ => simp [ofElement, hf]

namespace Model

/-- The general classes of top-level classes. -/
def generalTypes (m : Model) : List Handle := m.roots.flatMap m.generals

/-- The types of the properties of top-level classes and of the selected ends of associations. -/
def attributeTypes (m : Model) : List Handle :=
  (m.roots.flatMap m.ownProperties).map (·.type) ++
    (m.roots.flatMap m.ownEnds).map (·.property.type)

/-- Whether an element has no declaration at the top level and is not primitive either. -/
def Undeclared (m : Model) (h : Handle) : Prop :=
  ¬ m.Declared h ∧ (m.element h).isPrimitive = false

/-- The names of the interfaces that top-level elements declare. -/
def interfaceNames (m : Model) : List String :=
  (m.declaring m.roots).map fun h => (m.element h).name

/-- The names of all interfaces and unions that top-level elements declare. -/
def declaredNames (m : Model) : List String := m.roots.filterMap m.declaredName?

/-- Whether a top-level element with the name has its declaration at a target. -/
def NameDeclaredAt (m : Model) (name : String) (t : Target) : Prop :=
  ∃ h, (m.element h).name = name ∧ m.DeclaredAt h t

theorem exists_nameDeclaredAt_interface {m : Model} {name : String}
    (h : name ∈ m.interfaceNames) : ∃ k, m.NameDeclaredAt name (.interface k) := by
  obtain ⟨d, hd, rfl⟩ := List.mem_map.mp h
  obtain ⟨k, hk⟩ := List.getElem?_of_mem hd
  exact ⟨k, d, rfl, hk⟩

theorem exists_nameDeclaredAt {m : Model} {name : String} (h : name ∈ m.declaredNames) :
    ∃ t, m.NameDeclaredAt name t := by
  obtain ⟨d, hroot, hname⟩ := List.mem_filterMap.mp h
  unfold declaredName? at hname
  split at hname
  case isTrue hdeclares =>
    obtain rfl := Option.some.inj hname
    have hmem : d ∈ m.declaring m.roots := List.mem_filter.mpr ⟨hroot, hdeclares⟩
    exact exists_nameDeclaredAt_interface (List.mem_map_of_mem hmem) |>.imp' .interface fun _ => id
  case isFalse =>
    obtain ⟨u, hu, rfl⟩ := Option.map_eq_some_iff.mp hname
    have hmem : d ∈ m.enumerations := List.mem_filter.mpr ⟨hroot, by rw [hu]; rfl⟩
    obtain ⟨k, hk⟩ := List.getElem?_of_mem hmem
    exact ⟨.union k, d, (name_of_union? hu).symm, hk⟩

instance (m : Model) (h : Handle) : Decidable (m.Undeclared h) :=
  inferInstanceAs (Decidable (¬ (h ∈ m.declaring m.roots ∨ h ∈ m.enumerations) ∧
    (m.element h).isPrimitive = false))

theorem mem_declaring_of_classifier {m : Model} {h : Handle} (hroot : h ∈ m.roots)
    {isInterface : Bool} {attributes : List Property} {gs : List Generalization}
    (hf : (m.element h).form = .classifier isInterface attributes gs) :
    h ∈ m.declaring m.roots :=
  List.mem_filter.mpr ⟨hroot, by simp only [Element.declaresInterface, hf]⟩

theorem mem_declaring_of_generals {m : Model} {h t : Handle} (hroot : h ∈ m.roots)
    (ht : t ∈ m.generals h) : h ∈ m.declaring m.roots := by
  unfold generals at ht
  split at ht
  next hf => exact mem_declaring_of_classifier hroot hf
  next => cases ht

theorem mem_declaring_of_ownProperties {m : Model} {h : Handle} {p : Property}
    (hroot : h ∈ m.roots) (hp : p ∈ m.ownProperties h) : h ∈ m.declaring m.roots := by
  unfold ownProperties at hp
  split at hp
  next hf => exact mem_declaring_of_classifier hroot hf
  next => cases hp

end Model

namespace Outline

variable {s : Settings} {m : Model} {o : Outline}

/-- In a closed outline general classes go under names of interfaces. -/
theorem mem_interfaceNames_of_generalTypes (ho : ofModel s m = .ok o) (hc : o.grammar.Closed)
    {t : Handle} (ht : t ∈ m.generalTypes) : (m.element t).name ∈ m.interfaceNames := by
  obtain ⟨h, hroot, ht⟩ := List.mem_flatMap.mp ht
  have hi := (finished_of_ofModel ho).1
  have hmem := List.mem_map_of_mem (f := withEnds s m (m.roots.flatMap m.ownEnds))
    (Model.mem_declaring_of_generals hroot ht)
  have hnamed := hc.superTypes _ (hi ▸ hmem) ⟨(m.element t).name, none⟩ (by
    rw [withEnds, m.superTypes_eq_generals]
    exact List.mem_map_of_mem ht)
  rwa [hi, List.map_map] at hnamed

/-- In a closed outline an attribute for a property tells that the type of the property has a
declared name, unless it is primitive. -/
theorem mem_declaredNames_of_attribute (ho : ofModel s m = .ok o) (hc : o.grammar.Closed)
    {h : Handle} (hdeclares : h ∈ m.declaring m.roots) (role : Role) {p : Property}
    (ha : Attribute.ofProperty s.compositeOptionality role p (m.element p.type) ∈
      (withEnds s m (m.roots.flatMap m.ownEnds) h).attributes)
    (hprimitive : (m.element p.type).isPrimitive = false) :
    (m.element p.type).name ∈ m.declaredNames := by
  have hi := (finished_of_ofModel ho).1
  have hmem := List.mem_map_of_mem (f := withEnds s m (m.roots.flatMap m.ownEnds)) hdeclares
  have href : (Attribute.ofProperty s.compositeOptionality role p
      (m.element p.type)).type.typeRef? = some ⟨(m.element p.type).name, none⟩ := by
    rw [TypeExpr.typeRef?, Attribute.innermost_ofProperty,
      SimpleType.ofElement_of_not_isPrimitive hprimitive]
  exact (declared_perm_of_ofModel ho).mem_iff.mpr (hc.types _ (hi ▸ hmem) _ ha _ href)

/-- In a closed outline types of attributes go under declared names unless they are primitive. -/
theorem mem_declaredNames_of_attributeTypes (ho : ofModel s m = .ok o) (hc : o.grammar.Closed)
    {t : Handle} (ht : t ∈ m.attributeTypes) (hprimitive : (m.element t).isPrimitive = false) :
    (m.element t).name ∈ m.declaredNames := by
  rcases List.mem_append.mp ht with hown | hend
  · obtain ⟨p, hp, rfl⟩ := List.mem_map.mp hown
    obtain ⟨h, hroot, hp⟩ := List.mem_flatMap.mp hp
    refine mem_declaredNames_of_attribute ho hc (Model.mem_declaring_of_ownProperties hroot hp)
      .owned ?_ hprimitive
    rw [withEnds, m.ownAttributes_eq_ownProperties s]
    exact List.mem_append_left _ (List.mem_map_of_mem hp)
  · obtain ⟨e, he, rfl⟩ := List.mem_map.mp hend
    have howned := (exists_ofModel_iff.mp ⟨o, ho⟩).owned e he
    have hreceived : e ∈ (m.roots.flatMap m.ownEnds).filter (·.receiver = e.receiver) :=
      List.mem_filter.mpr ⟨he, by simp⟩
    refine mem_declaredNames_of_attribute ho hc howned .associationEnd ?_ hprimitive
    exact List.mem_append_right _ (List.mem_map_of_mem hreceived)

/-- A name that a top-level element declares leads to its declaration. -/
theorem resolve?_attribute_of_nameDeclaredAt (ho : ofModel s m = .ok o) {name : String} {t : Target}
    (hd : m.NameDeclaredAt name t) (k : Nat) :
    o.grammar.resolve? name (.attribute k) = some t := by
  obtain ⟨d, rfl, hd⟩ := hd
  exact resolve?_attribute_of_declaredAt ho hd k

theorem resolve?_superType_of_nameDeclaredAt (ho : ofModel s m = .ok o) {name : String} {i : Nat}
    (hd : m.NameDeclaredAt name (.interface i)) (k : Nat) :
    o.grammar.resolve? name (.superType k) = some (.interface i) := by
  obtain ⟨d, rfl, hd⟩ := hd
  exact resolve?_superType_of_declaredAt ho hd k

end Outline

/-- A grammar in which each reference to an element points at the declaration of the element's name,
be it that of another element. A general class goes under the name of an interface, the type of an
attribute under that of an interface or union, unless it is primitive. -/
structure Grammar.BindsNames (g : Grammar) (m : Model) : Prop where
  interfaces : List.Forall₂ (fun h i => i.name = (m.element h).name ∧
    List.Forall₂ (fun t ref => ref.name = (m.element t).name ∧ ∃ k,
      ref.target = some (.interface k) ∧ m.NameDeclaredAt (m.element t).name (.interface k))
        (m.generals h) i.superTypes ∧
    List.Forall₂ (fun p a => a.name = p.name ∧ ((m.element p.type).isPrimitive = false →
      ∃ ref t, a.type.typeRef? = some ref ∧ ref.name = (m.element p.type).name ∧
        ref.target = some t ∧ m.NameDeclaredAt (m.element p.type).name t))
        (m.ownProperties h ++ m.receivedEnds h) i.attributes) (m.declaring m.roots) g.interfaces
  unions : List.Forall₂ (fun h u => m.union? h = some u) m.enumerations g.unions

namespace Outline

variable {s : Settings} {m : Model} {o : Outline}

theorem bindsNames_of_ofModel {g : Grammar} (ho : ofModel s m = .ok o)
    (hg : o.grammar.linked o.pending = .ok g) : g.BindsNames m := by
  have hc := (recorded_of_ofModel ho).exists_linked_iff.mp ⟨g, hg⟩
  have hgeneral (t : Handle) (ht : t ∈ m.generalTypes) :
      ∃ k, (o.linkedGeneral m t).target = some (.interface k) ∧
        m.NameDeclaredAt (m.element t).name (.interface k) := by
    obtain ⟨k, hd⟩ := Model.exists_nameDeclaredAt_interface
      (mem_interfaceNames_of_generalTypes ho hc ht)
    exact ⟨k, resolve?_superType_of_nameDeclaredAt ho hd 0, hd⟩
  have hattribute (role : Role) (p : Property) (ht : p.type ∈ m.attributeTypes)
      (hprimitive : (m.element p.type).isPrimitive = false) :
      ∃ ref t, (o.linkedAttribute s m role p).type.typeRef? = some ref ∧
        ref.name = (m.element p.type).name ∧ ref.target = some t ∧
        m.NameDeclaredAt (m.element p.type).name t := by
    obtain ⟨t, hd⟩ := Model.exists_nameDeclaredAt
      (mem_declaredNames_of_attributeTypes ho hc ht hprimitive)
    exact ⟨_, t, typeRef?_linkedAttribute role
      (SimpleType.ofElement_of_not_isPrimitive hprimitive)
      (resolve?_attribute_of_nameDeclaredAt ho hd 0), rfl, rfl, hd⟩
  refine ⟨forall₂_interfaces ho hg (fun h hroot t ht => ⟨rfl, hgeneral t ?_⟩)
    (fun h hroot p hp => ⟨rfl, hattribute .owned p ?_⟩)
    (fun e he => ⟨rfl, hattribute .associationEnd e.property ?_⟩), forall₂_unions ho hg⟩
  · exact List.mem_flatMap.mpr ⟨h, hroot, ht⟩
  · exact List.mem_append_left _ (List.mem_map_of_mem (List.mem_flatMap.mpr ⟨h, hroot, hp⟩))
  · exact List.mem_append_right _ (List.mem_map_of_mem he)

end Outline

/-- A run refuses a class model that refers to an undeclared element, unless the name of the element
is declared: by an interface for a general class, by an interface or union for the type of an
attribute. When the run succeeds, the reference is bound to that declaration. -/
theorem transform_rejects_undeclared {s : Settings} {roots : List Node} {m : Model}
    (hm : Model.ofNodes (IdIndex.ofRoots roots) roots = .ok m) :
    (∀ t, m.Undeclared t → (t ∈ m.generalTypes ∧ (m.element t).name ∉ m.interfaceNames ∨
      t ∈ m.attributeTypes ∧ (m.element t).name ∉ m.declaredNames) →
        ∀ g, transform s roots ≠ .ok g) ∧
    ∀ g, transform s roots = .ok g → g.BindsNames m := by
  refine ⟨fun t ht hcited g hg => ?_, fun g hg => ?_⟩
  · obtain ⟨m', o, g', hm', ho, hlinked, -⟩ := transform_eq_ok.mp hg
    obtain rfl : m = m' := Except.ok.inj (hm.symm.trans hm')
    have hc := (Outline.recorded_of_ofModel ho).exists_linked_iff.mp ⟨g', hlinked⟩
    rcases hcited with ⟨hmem, hname⟩ | ⟨hmem, hname⟩
    · exact hname (Outline.mem_interfaceNames_of_generalTypes ho hc hmem)
    · exact hname (Outline.mem_declaredNames_of_attributeTypes ho hc hmem ht.2)
  · obtain ⟨m', o, g', hm', ho, hlinked, rfl⟩ := transform_eq_ok.mp hg
    obtain rfl : m = m' := Except.ok.inj (hm.symm.trans hm')
    have hbinds := Outline.bindsNames_of_ofModel ho hlinked
    exact ⟨hbinds.interfaces, hbinds.unions⟩

/-- A class with a nested general class. An enumeration is called like the nested class. -/
def nested : List Node := [
  .mk [.text "@_xmi:type" "uml:Class", .text "@_xmi:id" "item", .text "@_name" "Item",
    .one "generalization" (.mk [.text "@_general" "base"]),
    .one "nestedClassifier" (.mk [.text "@_xmi:type" "uml:Class", .text "@_xmi:id" "base",
      .text "@_name" "Base"])],
  .mk [.text "@_xmi:type" "uml:Enumeration", .text "@_xmi:id" "kind", .text "@_name" "Base"]]

def nestedModel : Model where
  elements := [
    ⟨some "item", "Item", .publicAccess, .classifier false [] [⟨none, [1]⟩]⟩,
    ⟨some "base", "Base", .publicAccess, .classifier false [] []⟩,
    ⟨some "kind", "Base", .publicAccess, .enumeration []⟩]
  roots := [0, 2]
  table := [("kind", 2), ("base", 1), ("item", 0)]

/-- An item with an owner from a library, next to a class that is called like the owner. -/
def rental : List Node := [
  .mk [.text "@_xmi:type" "uml:Class", .text "@_xmi:id" "item", .text "@_name" "Item",
    .one "ownedAttribute" (.mk [.text "@_name" "owner",
      .one "type" (.mk [.text "@_xmi:type" "uml:Class", .text "@_href" "other.uml#Owner"])])],
  .mk [.text "@_xmi:type" "uml:Class", .text "@_xmi:id" "owner", .text "@_name" "Owner"]]

def rentalModel : Model where
  elements := [
    ⟨some "item", "Item", .publicAccess, .classifier false
      [⟨none, "owner", .publicAccess, .one, .plain, 1, none⟩] []⟩,
    ⟨none, "Owner", .publicAccess, .classifier false [] []⟩,
    ⟨some "owner", "Owner", .publicAccess, .classifier false [] []⟩]
  roots := [0, 2]
  table := [("owner", 2), ("other.uml#Owner", 1), ("item", 0)]

def rentalGrammar : Grammar where
  name := "MyGrammar"
  entryRule := "Model"
  interfaces := [
    ⟨"Item", [], [⟨"owner", false, .reference (.named ⟨"Owner", some (.interface 1)⟩)⟩]⟩,
    ⟨"Owner", [], []⟩]

/-- An undeclared type is accepted when a class has its name. -/
theorem rental_bound : Model.ofNodes (IdIndex.ofRoots rental) rental = .ok rentalModel ∧
    rentalModel.Undeclared 1 ∧ 1 ∈ rentalModel.attributeTypes ∧
    transform {} rental = .ok rentalGrammar := by
  refine ⟨?_, ?_, ?_, ?_⟩ <;> decide +kernel

/-- The nested class is refused, and the owner from the library is taken for the class that is
called like it. -/
theorem nested_rejected : (nestedModel.Undeclared 1 ∧ 1 ∈ nestedModel.generalTypes ∧
    "Base" ∉ nestedModel.interfaceNames ∧ ∀ g, transform {} nested ≠ .ok g) ∧
    transform {} rental = .ok rentalGrammar ∧ rentalGrammar.BindsNames rentalModel := by
  have hm : Model.ofNodes (IdIndex.ofRoots nested) nested = .ok nestedModel := by decide +kernel
  have ht : nestedModel.Undeclared 1 := by decide +kernel
  have hmem : 1 ∈ nestedModel.generalTypes := by decide
  have hname : "Base" ∉ nestedModel.interfaceNames := by decide +kernel
  have hm' : Model.ofNodes (IdIndex.ofRoots rental) rental = .ok rentalModel := by decide +kernel
  have hg : transform {} rental = .ok rentalGrammar := by decide +kernel
  exact ⟨⟨ht, hmem, hname, (transform_rejects_undeclared hm).1 1 ht (.inl ⟨hmem, hname⟩)⟩,
    hg, (transform_rejects_undeclared hm').2 _ hg⟩

end ClassGrammar
