import ClassGrammar.Proofs.Outlines.AdmittedModels
import ClassGrammar.Proofs.Linking.RunsLinkAll
import ClassGrammar.Proofs.Linking.LinkedOutcome

/-! Linking by name finds the declaration that was made for the element. Names are all that an
outline keeps of elements, but declared names are distinct, so a name leads back to the element. -/
namespace ClassGrammar

namespace Grammar

/-- The name of the declaration that a target points at. -/
def nameAt? (g : Grammar) : Target → Option String
  | .interface k => g.interfaces[k]?.map (·.name)
  | .union k => g.unions[k]?.map (·.name)

theorem findInterface?_of_nodup {g : Grammar} (hn : g.declared.Nodup) {name : String} {k : Nat}
    (h : g.nameAt? (.interface k) = some name) : g.findInterface? name = some k := by
  have hk : (g.interfaces.map (·.name))[k]? = some name := by
    rw [List.getElem?_map]
    exact h
  exact (lookup_nameTable_of_nodup (List.nodup_append.mp hn).1).mpr hk

theorem findUnion?_of_nodup {g : Grammar} (hn : g.declared.Nodup) {name : String} {k : Nat}
    (h : g.nameAt? (.union k) = some name) :
    g.findInterface? name = none ∧ g.findUnion? name = some k := by
  have hk : (g.unions.map (·.name))[k]? = some name := by
    rw [List.getElem?_map]
    exact h
  obtain ⟨-, hunions, hdisjoint⟩ := List.nodup_append.mp hn
  refine ⟨findInterface?_eq_none.mpr fun i hi he => ?_, (lookup_nameTable_of_nodup hunions).mpr hk⟩
  exact hdisjoint i.name (List.mem_map_of_mem hi) name (List.mem_of_getElem? hk) he

/-- When declared names are distinct, the type of an attribute is what has its name. -/
theorem resolve?_of_nodup {g : Grammar} (hn : g.declared.Nodup) {name : String} {t : Target}
    (h : g.nameAt? t = some name) (k : Nat) : g.resolve? name (.attribute k) = some t := by
  cases t with
  | interface j => simp [resolve?, findInterface?_of_nodup hn h]
  | union j =>
    obtain ⟨hnone, hj⟩ := findUnion?_of_nodup hn h
    simp [resolve?, hnone, hj]

end Grammar

namespace Model

/-- The top-level elements that declare a union. -/
def enumerations (m : Model) : List Handle := m.roots.filter fun h => (m.union? h).isSome

/-- The top-level elements with a declaration: classes, enumerations, and data types that are not
primitive. -/
def Declared (m : Model) (h : Handle) : Prop := h ∈ m.declaring m.roots ∨ h ∈ m.enumerations

/-- Whether a top-level element has its declaration at a target. -/
def DeclaredAt (m : Model) (h : Handle) : Target → Prop
  | .interface k => (m.declaring m.roots)[k]? = some h
  | .union k => m.enumerations[k]? = some h

theorem Declared.exists_declaredAt {m : Model} {h : Handle} (hd : m.Declared h) :
    ∃ t, m.DeclaredAt h t := by
  rcases hd with hmem | hmem <;> obtain ⟨k, hk⟩ := List.getElem?_of_mem hmem
  · exact ⟨.interface k, hk⟩
  · exact ⟨.union k, hk⟩

/-- The general classes of a class. -/
def generals (m : Model) (h : Handle) : List Handle :=
  match (m.element h).form with
  | .classifier _ _ generalizations => generalizations.flatMap (·.targets)
  | _ => []

def ownProperties (m : Model) (h : Handle) : List Property :=
  match (m.element h).form with
  | .classifier _ attributes _ => attributes
  | _ => []

/-- The association ends that become attributes of an element. -/
def receivedEnds (m : Model) (h : Handle) : List Property :=
  ((m.roots.flatMap m.ownEnds).filter (·.receiver = h)).map (·.property)

theorem superTypes_eq_generals (m : Model) (h : Handle) :
    m.superTypes h = (m.generals h).map fun t => ⟨(m.element t).name, none⟩ := by
  unfold superTypes generals
  cases (m.element h).form <;> rfl

theorem ownAttributes_eq_ownProperties (s : Settings) (m : Model) (h : Handle) :
    m.ownAttributes s h = (m.ownProperties h).map fun p =>
      .ofProperty s.compositeOptionality .owned p (m.element p.type) := by
  unfold ownAttributes ownProperties
  cases (m.element h).form <;> rfl

theorem name_of_union? {m : Model} {h : Handle} {u : Union} (hu : m.union? h = some u) :
    u.name = (m.element h).name := by
  unfold union? at hu
  cases hf : (m.element h).form <;> simp only [hf] at hu <;> cases hu
  rfl

theorem forall₂_enumerations (m : Model) :
    List.Forall₂ (fun h u => m.union? h = some u) m.enumerations (m.roots.filterMap m.union?) := by
  unfold enumerations
  induction m.roots with
  | nil => exact .nil
  | cons h rest ih =>
    cases hu : m.union? h with
    | none => simpa [List.filter_cons, List.filterMap_cons, hu] using ih
    | some u =>
      simp only [List.filter_cons, List.filterMap_cons, hu, Option.isSome_some, if_true]
      exact .cons hu ih

/-- An element with a declaration is not taken for a primitive type. -/
theorem DeclaredAt.ofElement {m : Model} {h : Handle} {t : Target} (hd : m.DeclaredAt h t) :
    SimpleType.ofElement (m.element h) = .named ⟨(m.element h).name, none⟩ := by
  cases t with
  | interface k =>
    have hdeclares := (List.mem_filter.mp (List.mem_of_getElem? hd)).2
    unfold Element.declaresInterface at hdeclares
    unfold SimpleType.ofElement
    cases hf : (m.element h).form with
    | dataType =>
      simp only [hf, Option.isNone_iff_eq_none] at hdeclares
      simp [SimpleType.ofElement.ofTypeName, hdeclares]
    | classifier _ _ _ => rfl
    | _ => simp [hf] at hdeclares
  | union k =>
    have hunion := (List.mem_filter.mp (List.mem_of_getElem? hd)).2
    unfold union? at hunion
    unfold SimpleType.ofElement
    cases hf : (m.element h).form with
    | enumeration _ => rfl
    | _ => simp [hf] at hunion

end Model

/-- A grammar in which references to declared elements point at the declarations of these very
elements. Its interfaces and unions stand in the order of the elements that declare them. -/
structure Grammar.Identifies (g : Grammar) (m : Model) : Prop where
  interfaces : List.Forall₂ (fun h i => i.name = (m.element h).name ∧
    List.Forall₂ (fun t ref => ref.name = (m.element t).name ∧ (t ∈ m.declaring m.roots →
      ∃ k, ref.target = some (.interface k) ∧ m.DeclaredAt t (.interface k)))
        (m.generals h) i.superTypes ∧
    List.Forall₂ (fun p a => a.name = p.name ∧ (m.Declared p.type →
      ∃ ref t, a.type.typeRef? = some ref ∧ ref.target = some t ∧ m.DeclaredAt p.type t))
        (m.ownProperties h ++ m.receivedEnds h) i.attributes) (m.declaring m.roots) g.interfaces
  unions : List.Forall₂ (fun h u => m.union? h = some u) m.enumerations g.unions

namespace Outline

variable {s : Settings} {m : Model} {o : Outline}

theorem nameAt?_of_declaredAt (ho : ofModel s m = .ok o) {h : Handle} {t : Target}
    (hd : m.DeclaredAt h t) : o.grammar.nameAt? t = some (m.element h).name := by
  obtain ⟨hi, hu⟩ := finished_of_ofModel ho
  cases t with
  | interface k =>
    have hk : (m.declaring m.roots)[k]? = some h := hd
    simp [Grammar.nameAt?, hi, hk, withEnds]
  | union k =>
    have hk : m.enumerations[k]? = some h := hd
    have hpair := m.forall₂_enumerations
    obtain ⟨hlt, rfl⟩ := List.getElem?_eq_some_iff.mp hk
    have hlt' : k < (m.roots.filterMap m.union?).length := hpair.length_eq ▸ hlt
    have hunion := hpair.get hlt hlt'
    simp only [List.get_eq_getElem] at hunion
    rw [Grammar.nameAt?, hu, List.getElem?_eq_getElem hlt', Option.map_some,
      m.name_of_union? hunion]

theorem resolve?_attribute_of_declaredAt (ho : ofModel s m = .ok o) {h : Handle} {t : Target}
    (hd : m.DeclaredAt h t) (k : Nat) :
    o.grammar.resolve? (m.element h).name (.attribute k) = some t :=
  Grammar.resolve?_of_nodup (nodup_declared_of_ofModel ho) (nameAt?_of_declaredAt ho hd) k

theorem resolve?_superType_of_declaredAt (ho : ofModel s m = .ok o) {h : Handle} {i : Nat}
    (hd : m.DeclaredAt h (.interface i)) (k : Nat) :
    o.grammar.resolve? (m.element h).name (.superType k) = some (.interface i) := by
  have hfind := Grammar.findInterface?_of_nodup (nodup_declared_of_ofModel ho)
    (nameAt?_of_declaredAt ho hd)
  simp [Grammar.resolve?, hfind]

/-- The reference to a general class, as linking leaves it. -/
def linkedGeneral (o : Outline) (m : Model) (t : Handle) : TypeRef :=
  o.grammar.lookUp (.superType 0) ⟨(m.element t).name, none⟩

/-- The attribute for a property, as linking leaves it. -/
def linkedAttribute (o : Outline) (s : Settings) (m : Model) (role : Role) (p : Property) :
    Attribute :=
  (Attribute.ofProperty s.compositeOptionality role p (m.element p.type)).mapRef
    (o.grammar.lookUp (.attribute 0))

/-- The interfaces of a linked grammar, position by position: what holds of the reference to each
general class and of the attribute for each property holds throughout. -/
theorem forall₂_interfaces {g : Grammar} (ho : ofModel s m = .ok o)
    (hg : o.grammar.linked o.pending = .ok g) {P : Handle → TypeRef → Prop}
    {Q : Property → Attribute → Prop}
    (general : ∀ h ∈ m.roots, ∀ t ∈ m.generals h, P t (o.linkedGeneral m t))
    (owned : ∀ h ∈ m.roots, ∀ p ∈ m.ownProperties h, Q p (o.linkedAttribute s m .owned p))
    (received : ∀ e ∈ m.roots.flatMap m.ownEnds,
      Q e.property (o.linkedAttribute s m .associationEnd e.property)) :
    List.Forall₂ (fun h i => i.name = (m.element h).name ∧
      List.Forall₂ P (m.generals h) i.superTypes ∧
      List.Forall₂ Q (m.ownProperties h ++ m.receivedEnds h) i.attributes)
      (m.declaring m.roots) g.interfaces := by
  obtain ⟨hi, -⟩ := finished_of_ofModel ho
  obtain rfl := (recorded_of_ofModel ho).eq_resolved hg
  simp only [Grammar.resolved, Grammar.mapRefs, hi, List.map_map]
  rw [List.forall₂_map_right_iff, List.forall₂_same]
  intro h hdeclares
  have hroot : h ∈ m.roots := (List.mem_filter.mp hdeclares).1
  refine ⟨rfl, ?_, ?_⟩
  · simp only [Function.comp_apply, Interface.mapRefs, withEnds, m.superTypes_eq_generals,
      List.map_map]
    rw [List.forall₂_map_right_iff, List.forall₂_same]
    exact general h hroot
  · simp only [Function.comp_apply, Interface.mapRefs, withEnds,
      m.ownAttributes_eq_ownProperties s, List.map_append, List.map_map]
    refine List.rel_append ?_ ?_
    · rw [List.forall₂_map_right_iff, List.forall₂_same]
      exact owned h hroot
    · rw [Model.receivedEnds, List.forall₂_map_left_iff, List.forall₂_map_right_iff,
        List.forall₂_same]
      exact fun e he => received e (List.mem_filter.mp he).1

/-- The unions of a linked grammar are those of the elements that declare them. -/
theorem forall₂_unions {g : Grammar} (ho : ofModel s m = .ok o)
    (hg : o.grammar.linked o.pending = .ok g) :
    List.Forall₂ (fun h u => m.union? h = some u) m.enumerations g.unions := by
  obtain ⟨-, hu⟩ := finished_of_ofModel ho
  obtain rfl := (recorded_of_ofModel ho).eq_resolved hg
  exact hu ▸ m.forall₂_enumerations

/-- A property whose type goes under a declared name has a reference that points there. -/
theorem typeRef?_linkedAttribute (role : Role) {p : Property} {t : Target}
    (href : SimpleType.ofElement (m.element p.type) = .named ⟨(m.element p.type).name, none⟩)
    (ht : o.grammar.resolve? (m.element p.type).name (.attribute 0) = some t) :
    (o.linkedAttribute s m role p).type.typeRef? = some ⟨(m.element p.type).name, some t⟩ := by
  rw [linkedAttribute, Attribute.mapRef, TypeExpr.typeRef?_mapRef, TypeExpr.typeRef?,
    Attribute.innermost_ofProperty, href, Option.map_some, Grammar.lookUp, ht]

/-- Linking an outline by name agrees with the identity of the elements that it was made from. -/
theorem identifies_of_ofModel {g : Grammar} (ho : ofModel s m = .ok o)
    (hg : o.grammar.linked o.pending = .ok g) : g.Identifies m := by
  have hgeneral (t : Handle) (hmem : t ∈ m.declaring m.roots) : ∃ k,
      (o.linkedGeneral m t).target = some (.interface k) ∧ m.DeclaredAt t (.interface k) := by
    obtain ⟨k, hd⟩ := List.getElem?_of_mem hmem
    exact ⟨k, resolve?_superType_of_declaredAt ho hd 0, hd⟩
  have hattribute (role : Role) (p : Property) (hdeclared : m.Declared p.type) : ∃ ref t,
      (o.linkedAttribute s m role p).type.typeRef? = some ref ∧ ref.target = some t ∧
        m.DeclaredAt p.type t := by
    obtain ⟨t, hd⟩ := hdeclared.exists_declaredAt
    have ht := resolve?_attribute_of_declaredAt ho hd 0
    exact ⟨_, t, typeRef?_linkedAttribute role hd.ofElement ht, rfl, hd⟩
  exact ⟨forall₂_interfaces ho hg (fun _ _ t _ => ⟨rfl, hgeneral t⟩)
    (fun _ _ p _ => ⟨rfl, hattribute .owned p⟩)
    (fun e _ => ⟨rfl, hattribute .associationEnd e.property⟩), forall₂_unions ho hg⟩

/-- Cars have a status and are driven by persons. A primitive type is called like the status. -/
def garage : Model where
  elements := [
    ⟨none, "", .publicAccess, .association
      ⟨some "d", "driver", .publicAccess, .one, .shared, 2, some 0⟩
      ⟨none, "car", .publicAccess, .one, .plain, 1, some 0⟩ ["d"]⟩,
    ⟨some "car", "Car", .publicAccess, .classifier false
      [⟨none, "status", .publicAccess, .one, .plain, 3, none⟩,
        ⟨none, "size", .publicAccess, .one, .plain, 4, none⟩] [⟨none, [5]⟩]⟩,
    ⟨some "person", "Person", .publicAccess, .classifier false [] []⟩,
    ⟨some "status", "Status", .publicAccess, .enumeration [⟨none, "free", .publicAccess⟩]⟩,
    ⟨some "size", "Size", .publicAccess, .dataType⟩,
    ⟨some "thing", "Thing", .publicAccess, .classifier true
      [⟨none, "state", .publicAccess, .one, .plain, 6, none⟩] []⟩,
    ⟨none, "Status", .publicAccess, .primitiveType⟩]
  roots := [0, 1, 2, 3, 4, 5]

def garageGrammar : Grammar where
  name := "MyGrammar"
  entryRule := "Model"
  interfaces := [
    ⟨"Car", [⟨"Thing", some (.interface 3)⟩], [
      ⟨"status", false, .simple (.named ⟨"Status", some (.union 0)⟩)⟩,
      ⟨"size", false, .simple (.named ⟨"Size", some (.interface 2)⟩)⟩,
      ⟨"driver", false, .reference (.named ⟨"Person", some (.interface 1)⟩)⟩]⟩,
    ⟨"Person", [], []⟩,
    ⟨"Size", [], []⟩,
    ⟨"Thing", [], [⟨"state", false, .simple (.named ⟨"Status", some (.union 0)⟩)⟩]⟩]
  unions := [⟨"Status", ["free"]⟩]

theorem garage_identified : ∃ o, ofModel {} garage = .ok o ∧
    o.grammar.linked o.pending = .ok garageGrammar ∧ garageGrammar.Identifies garage := by
  have hrun : ((ofModel {} garage) >>= fun o => o.grammar.linked o.pending) =
      .ok garageGrammar := by decide +kernel
  obtain ⟨o, ho, hg⟩ := outcome_bind.mp hrun
  exact ⟨o, ho, hg, identifies_of_ofModel ho hg⟩

end Outline
end ClassGrammar
