import ClassGrammar.Proofs.Linking.DeclaredHandles
import ClassGrammar.Proofs.Models.FinishedModels

/-! Elements as their nodes describe them. What an outline takes from the element of a node is what
is read off the node directly: attributes, super types, unions, and the ends that others receive. -/
namespace ClassGrammar

/-- An attribute depends on a part of the property and on the name and the kind of its type. -/
theorem Attribute.ofProperty_congr {policy : OptionalityPolicy} {role : Role} {p p' : Property}
    {e e' : Element} (name : p.name = p'.name) (multiplicity : p.multiplicity = p'.multiplicity)
    (aggregation : p.aggregation = p'.aggregation)
    (simple : SimpleType.ofElement e = SimpleType.ofElement e')
    (dataType : e.form.isDataType = e'.form.isDataType) :
    Attribute.ofProperty policy role p e = Attribute.ofProperty policy role p' e' := by
  have hreference : role.isReference p e = role.isReference p' e' := by
    cases role <;> simp [Role.isReference, aggregation, dataType]
  have hoptional : policy.isOptional p = policy.isOptional p' := by
    cases policy <;> simp [OptionalityPolicy.isOptional, multiplicity, aggregation]
  simp only [Attribute.ofProperty, name, multiplicity, simple, hreference, hoptional]

theorem selectedEnds_congr {first first' : Property} (id : first.id = first'.id)
    (name : first.name = first'.name) (tokens : List String) :
    selectedEnds first tokens = selectedEnds first' tokens := by
  unfold selectedEnds
  simp only [id, name]

/-- The element of a type is like the stand-in for its source. -/
theorem Source.Heads.like {src : Source} {e : Element} (h : src.Heads e) {kind : TypeKind}
    (hk : src.kind?.bind TypeKind.ofText? = some kind) : e.name = src.element.name ∧
      SimpleType.ofElement e = SimpleType.ofElement src.element ∧
      e.form.isDataType = src.element.form.isDataType := by
  have htext := TypeKind.bind_ofText?_eq_some.mp hk
  have hform : e.form.kindText = kind.text := Option.some.inj (h.kind.symm.trans htext)
  have hname : src.name? = some e.name := by
    refine h.name ?_
    rw [htext]
    cases kind <;> simp [TypeKind.text]
  rw [Source.element_eq hk hname]
  refine ⟨rfl, ?_, ?_⟩
  · unfold SimpleType.ofElement
    cases hf : e.form with
    | classifier isInterface _ _ =>
      cases isInterface <;> cases kind <;> simp_all [Form.kindText, TypeKind.text, TypeKind.form]
    | _ => cases kind <;> simp_all [Form.kindText, TypeKind.text, TypeKind.form]
  · cases hf : e.form with
    | classifier isInterface _ _ =>
      cases isInterface <;> cases kind <;>
        simp_all [Form.kindText, TypeKind.text, TypeKind.form, Form.isDataType]
    | _ => cases kind <;> simp_all [Form.kindText, TypeKind.text, TypeKind.form, Form.isDataType]

theorem Node.TypedBy.kind {ix : IdIndex} {c : Node} {src : Source} (h : c.TypedBy ix src) :
    ∃ kind, src.kind?.bind TypeKind.ofText? = some kind := by
  cases h with
  | node _ _ isType => exact ⟨_, isType⟩
  | @library ref href kind _ _ _ => exact ⟨kind, kind.ofText?_text⟩

theorem Node.Declares.isClass_of_classifier {n : Node} {e : Element} (h : n.Declares e)
    {isInterface : Bool} {attributes : List Property} {gs : List Generalization}
    (hf : e.form = .classifier isInterface attributes gs) : n.isClass = true := by
  have hkind := h.kind
  cases isInterface <;>
    simp [isClass, TypeKind.ofNode?, hkind, hf, Form.kindText, TypeKind.ofText?, TypeKind.isClass]

/-- Only associations navigate to ends. -/
theorem Node.flatMap_navigated (find : String → Option Node) (ns : List Node) :
    (ns.filter isAssociation).flatMap (navigated find) = ns.flatMap (navigated find) := by
  induction ns with
  | nil => rfl
  | cons n rest ih =>
    cases ha : n.isAssociation with
    | true => simp [ha, ih]
    | false => simp [ha, ih, navigated, endNodes]

namespace Model.ReadFrom

variable {roots : List Node} {srcs : List Source} {m : Model} {h : Handle} {n c : Node}
  {owner : Option Handle} {p : Property}

section Property

variable (hm : m.ReadFrom roots srcs) (hsrc : srcs[h]? = some (.node n))
  (hc : c ∈ n.propertyNodes) (hp : c.StatesProperty m owner p)
include hm hsrc hc hp

theorem like_typeElement :
    (m.element p.type).name = (c.typeElement (IdIndex.ofRoots roots).get?).name ∧
      SimpleType.ofElement (m.element p.type) =
        SimpleType.ofElement (c.typeElement (IdIndex.ofRoots roots).get?) ∧
      (m.element p.type).form.isDataType =
        (c.typeElement (IdIndex.ofRoots roots).get?).form.isDataType := by
  obtain ⟨src, htyped, htarget⟩ := hm.types h n hsrc c hc owner p hp
  obtain ⟨kind, hk⟩ := htyped.kind
  have helement : c.typeElement (IdIndex.ofRoots roots).get? = src.element := by
    simp only [Node.typeElement, Node.typeSource?_eq_some.mpr htyped, Option.map_some,
      Option.getD_some]
  rw [helement]
  exact (hm.heads p.type src htarget).like hk

theorem property_name : p.name = (c.property (IdIndex.ofRoots roots).get?).name := by
  rw [hp.name, (hm.like_typeElement hsrc hc hp).1]
  rfl

/-- The attribute for a property is read off its node. -/
theorem ofProperty_eq (s : Settings) (role : Role) :
    Attribute.ofProperty s.compositeOptionality role p (m.element p.type) =
      c.propertyAttribute (IdIndex.ofRoots roots).get? s role := by
  obtain ⟨-, hsimple, hdata⟩ := hm.like_typeElement hsrc hc hp
  have hbounds := Node.readMultiplicity_eq_ok.mp hp.multiplicity
  refine Attribute.ofProperty_congr (hm.property_name hsrc hc hp) ?_ hp.aggregation hsimple hdata
  simp only [Node.property, hbounds, Option.getD_some]

/-- A property has the element of a node as its type when it states the identifier of the node. -/
theorem type_eq_iff {a : Handle} {t : Node} (ha : srcs[a]? = some (.node t)) :
    p.type = a ↔ t.isTypeOf c = true := by
  obtain ⟨src, htyped, htarget⟩ := hm.types h n hsrc c hc owner p hp
  unfold Node.isTypeOf
  simp only [Bool.and_eq_true, decide_eq_true_eq]
  constructor
  · rintro rfl
    obtain rfl := Option.some.inj (htarget.symm.trans ha)
    cases htyped with
    | node key found _ =>
      have hid := (IdIndex.get?_mem found).2
      exact ⟨by simp [hid], key.trans hid.symm⟩
  · rintro ⟨hsome, htype⟩
    obtain ⟨id, hid⟩ := Option.isSome_iff_exists.mp hsome
    rw [hid] at htype
    cases htyped with
    | node key found _ =>
      obtain rfl := Option.some.inj (htype.symm.trans key)
      have hl := hm.registered p.type _ _ htarget (IdIndex.get?_mem found).2
      exact Option.some.inj (hl.symm.trans (hm.registered a _ _ ha hid))
    | library hhref _ _ => cases htype.symm.trans (Node.libraryHref?_eq_some.mp hhref).1

end Property

/-- An end on its way to its receiver, as the nodes of the two ends describe it. -/
structure EndFrom (s : Settings) (roots : List Node) (srcs : List Source) (m : Model)
    (pair : Node × Node) (e : NavigableEnd) : Prop where
  result : m.endAttribute s e.property =
    pair.1.propertyAttribute (IdIndex.ofRoots roots).get? s .associationEnd
  receiver : ∀ (a : Handle) t, srcs[a]? = some (.node t) →
    (e.receiver = a ↔ t.isTypeOf pair.2 = true)

theorem endFrom (s : Settings) (hm : m.ReadFrom roots srcs) (hsrc : srcs[h]? = some (.node n))
    {x y : Node} {p q : Property} (hx : x ∈ n.propertyNodes) (hy : y ∈ n.propertyNodes)
    (hp : x.StatesProperty m owner p) (hq : y.StatesProperty m owner q) :
    EndFrom s roots srcs m (x, y) ⟨m.element h, p, q.type⟩ where
  result := hm.ofProperty_eq hsrc hx hp s .associationEnd
  receiver _ _ ht := hm.type_eq_iff hsrc hy hq ht

/-- The ends of an association are those that its node navigates to. -/
theorem ends_from (s : Settings) (hm : m.ReadFrom roots srcs)
    (hsrc : srcs[h]? = some (.node n)) :
    List.Forall₂ (EndFrom s roots srcs m) (n.navigated (IdIndex.ofRoots roots).get?)
      (m.ownEnds h) := by
  cases ha : n.isAssociation with
  | false =>
    have hd : n.Declares (m.element h) := hm.heads h _ hsrc
    have hnone : m.ownEnds h = [] := by
      cases hf : (m.element h).form with
      | association _ _ _ => simp [Node.isAssociation, hd.kind, hf, Form.kindText] at ha
      | _ => simp only [Model.ownEnds, hf]
    rw [hnone]
    simp [Node.navigated, Node.endNodes, ha]
  | true =>
    obtain ⟨first, second, hf, hs⟩ := hm.association hsrc ha
    have hnodes : n.endNodes = n.propertyNodes := by
      simp [Node.endNodes, ha, Node.propertyNodes_of_isAssociation ha]
    obtain ⟨x, y, hends⟩ : ∃ x y, n.propertyNodes = [x, y] :=
      List.length_eq_two.mp hs.length_eq
    rw [hends] at hs
    obtain ⟨hx, hs'⟩ := List.forall₂_cons.mp hs
    obtain ⟨hy, -⟩ := List.forall₂_cons.mp hs'
    have hxmem : x ∈ n.propertyNodes := by simp [hends]
    have hymem : y ∈ n.propertyNodes := by simp [hends]
    have hselected : selectedEnds (x.property (IdIndex.ofRoots roots).get?) n.navigableTokens =
        selectedEnds first n.navigableTokens :=
      selectedEnds_congr hx.id.symm (hm.property_name hsrc hxmem hx).symm n.navigableTokens
    have hfirst := hm.endFrom s hsrc hxmem hymem hx hy
    have hsecond := hm.endFrom s hsrc hymem hxmem hy hx
    simp only [Node.navigated, hnodes, hends, Model.ownEnds, hf, hselected]
    rw [List.forall₂_map_left_iff, List.forall₂_map_right_iff, List.forall₂_same]
    intro k _
    by_cases hk : k = 0
    · simpa [hk, endAt] using hfirst
    · have hopposite : 1 - k = 0 := by omega
      simpa [hk, endAt, hopposite] using hsecond

/-- The super types of a class are the general classes that its node names. -/
theorem superTypes_eq (hm : m.ReadFrom roots srcs) (hsrc : srcs[h]? = some (.node n)) :
    m.superTypes h = (n.generalNodes (IdIndex.ofRoots roots).get?).map fun general =>
      ⟨general.name?.getD "", none⟩ := by
  cases hclass : n.isClass with
  | false =>
    have hd : n.Declares (m.element h) := hm.heads h _ hsrc
    have hempty : m.superTypes h = [] := by
      cases hf : (m.element h).form with
      | classifier _ _ _ => simp [hd.isClass_of_classifier hf] at hclass
      | _ => simp only [Model.superTypes, hf]
    simp [hempty, Node.generalNodes, hclass]
  | true =>
    obtain ⟨isInterface, attributes, gs, hf, -, hs⟩ := hm.classifier hsrc hclass
    have hpairs : List.Forall₂ (fun c (g : Generalization) => ∃ general t,
        c.generalNode? (IdIndex.ofRoots roots).get? = some general ∧ g.targets = [t] ∧
          (m.element t).name = general.name?.getD "") (n.children "generalization") gs := by
      apply forall₂_imp_of_mem hs
      intro c hc g hg
      obtain ⟨general, t, hspec, ht, hsource⟩ := hm.generals h n hsrc hclass c hc g hg
      obtain ⟨kind, hk, -⟩ := Node.isClass_eq_true.mp (by cases hspec; assumption)
      have hlike := (hm.heads t _ hsource).like hk
      exact ⟨general, t, Node.generalNode?_eq_some.mpr hspec, ht, hlike.1⟩
    simp only [Model.superTypes, hf, Node.generalNodes, hclass, if_true]
    generalize n.children "generalization" = cs at hpairs ⊢
    clear hs hf
    induction hpairs with
    | nil => rfl
    | cons hpair _ ih =>
      obtain ⟨general, t, hgeneral, ht, hname⟩ := hpair
      rw [List.flatMap_cons, List.filterMap_cons_some hgeneral, ht, List.map_append, ih]
      simp [hname]

theorem ownAttributes_eq (hm : m.ReadFrom roots srcs) (hsrc : srcs[h]? = some (.node n))
    (s : Settings) : m.ownAttributes s h =
      n.attributeNodes.map (Node.propertyAttribute (IdIndex.ofRoots roots).get? s .owned) := by
  cases hclass : n.isClass with
  | false =>
    have hd : n.Declares (m.element h) := hm.heads h _ hsrc
    have hempty : m.ownAttributes s h = [] := by
      cases hf : (m.element h).form with
      | classifier _ _ _ => simp [hd.isClass_of_classifier hf] at hclass
      | _ => simp only [Model.ownAttributes, hf]
    simp [hempty, Node.attributeNodes, hclass]
  | true =>
    obtain ⟨isInterface, attributes, gs, hf, hs, -⟩ := hm.classifier hsrc hclass
    have hnodes : n.attributeNodes = n.propertyNodes := by
      simp [Node.attributeNodes, hclass, Node.propertyNodes_of_isClass hclass]
    simp only [Model.ownAttributes, hf, hnodes]
    refine (map_eq_iff_forall₂.mpr (forall₂_imp_of_mem hs ?_)).symm
    intro c hc p hp
    exact (hm.ofProperty_eq hsrc hc hp s .owned).symm

/-- The ends that an element receives are those whose opposite ends state its node as their type. -/
theorem receivedAttributes_eq (hm : m.ReadFrom roots srcs) (hsrc : srcs[h]? = some (.node n))
    (s : Settings) :
    ((m.roots.flatMap m.ownEnds).filter (·.receiver = h)).map (m.endAttribute s ·.property) =
      (n.receivedEnds (IdIndex.ofRoots roots).get? (roots.filter Node.isAssociation)).map
        (Node.propertyAttribute (IdIndex.ofRoots roots).get? s .associationEnd) := by
  have hends := List.rel_flatMap hm.tops fun _ _ => hm.ends_from s
  have hfiltered := List.rel_filter (p := fun pair : Node × Node => n.isTypeOf pair.2)
    (q := fun e : NavigableEnd => decide (e.receiver = h))
    (fun _ _ hr => by simpa using (hr.receiver h n hsrc).symm) hends
  rw [Node.receivedEnds, Node.flatMap_navigated, List.map_map]
  exact (map_eq_iff_forall₂.mpr (hfiltered.imp fun _ _ hr => hr.result.symm)).symm

/-- The interface of an element is the one that its node describes. -/
theorem withEnds_eq (hm : m.ReadFrom roots srcs) (hsrc : srcs[h]? = some (.node n))
    (hd : n.declaresInterface = true) (s : Settings) :
    Outline.withEnds s m (m.roots.flatMap m.ownEnds) h =
      n.interface (IdIndex.ofRoots roots).get? s (roots.filter Node.isAssociation) := by
  have hname : n.name? = some (m.element h).name :=
    (hm.heads h _ hsrc).name_of_declaresInterface hd
  simp only [Outline.withEnds, Node.interface, hm.superTypes_eq hsrc, hm.ownAttributes_eq hsrc s,
    hm.receivedAttributes_eq hsrc s, hname, Option.getD_some]

theorem union?_eq (hm : m.ReadFrom roots srcs) (hsrc : srcs[h]? = some (.node n)) :
    m.union? h = n.union? := by
  have hd : n.Declares (m.element h) := hm.heads h _ hsrc
  have hkind := hd.kind
  cases hf : (m.element h).form with
  | enumeration ls =>
    have hk : n.kind? = some "uml:Enumeration" := by rw [hkind, hf]; rfl
    have hname : n.name? = some (m.element h).name :=
      (hm.heads h _ hsrc).name (by simp [Source.kind?, hk])
    have hliterals : (n.children "ownedLiteral").map (fun c => c.name?.getD "") =
        ls.map (·.name) := by
      refine map_eq_iff_forall₂.mpr ((hd.literals ls hf).imp fun c l hl => ?_)
      rw [hl.name, Option.getD_some]
    simp only [Model.union?, hf, Node.union?, hk, if_true, hname, Option.getD_some, hliterals]
  | classifier isInterface _ _ =>
    cases isInterface <;> simp [Model.union?, hf, Node.union?, hkind, Form.kindText]
  | _ => simp [Model.union?, hf, Node.union?, hkind, Form.kindText]

end Model.ReadFrom
end ClassGrammar
