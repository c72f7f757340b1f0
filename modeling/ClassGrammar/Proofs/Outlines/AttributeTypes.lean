import ClassGrammar.Proofs.Outlines.RunOutcome

/-! How the attributes of a grammar follow from the nodes of their properties: names, optionality,
and the choice between primitive types, names, references and arrays. -/
namespace ClassGrammar

/-- The primitive type for a source: primitive types and data types have one when their name is
known. -/
def Source.primitive? (src : Source) : Option Primitive :=
  if src.kind? = some "uml:PrimitiveType" ∨ src.kind? = some "uml:DataType" then
    src.name?.bind Primitive.ofTypeName?
  else none

/-- When the attribute of a property refers to a value that is kept elsewhere. -/
def Node.RefersTo (c : Node) (src : Source) : Role → Prop
  | .owned => c.attr? "aggregation" ≠ some "shared" ∧ c.attr? "aggregation" ≠ some "composite" ∧
      (src.kind? = some "uml:Class" ∨ src.kind? = some "uml:Interface")
  | .associationEnd => c.attr? "aggregation" ≠ some "composite"

/-- Whether an attribute is the right one for the node of a property whose type has a source. -/
structure Node.Selects (s : Settings) (role : Role) (c : Node) (src : Source) (a : Attribute) :
    Prop where
  name : ∃ typeName, src.name? = some typeName ∧
    a.name = c.name?.getD (Text.lowerFirst typeName)
  optional : a.isOptional = true ↔ readLower c a.name = .ok 0 ∧
    ¬ (s.compositeOptionality = .alwaysRequired ∧ c.attr? "aggregation" = some "composite")
  many : a.type.isArray = true ↔ ∃ n, readUpper c a.name = .ok n ∧ 1 < n
  flat : ∀ e, a.type = .array e → e.isArray = false
  reference : a.type.isReference = true ↔ c.RefersTo src role
  innermost : match src.primitive? with
    | some p => a.type.primitive? = some p
    | none => ∃ ref, a.type.typeRef? = some ref ∧ src.name? = some ref.name

theorem Aggregation.ofText_eq_composite {text : Option String} :
    ofText text = composite ↔ text = some "composite" := by
  unfold ofText
  split <;> simp_all

theorem Aggregation.ofText_eq_plain {text : Option String} :
    ofText text = plain ↔ text ≠ some "shared" ∧ text ≠ some "composite" := by
  unfold ofText
  split <;> simp_all

theorem Node.bounds_of_multiplicity? {c : Node} {m : Multiplicity}
    (h : c.multiplicity? = some m) (name : String) :
    ∃ lower upper, readLower c name = .ok lower ∧ readUpper c name = .ok upper ∧
      m = .ofBounds lower upper := by
  have hread : readMultiplicity c name = .ok m := readMultiplicity_eq_ok.mpr h
  obtain ⟨lower, hl, h⟩ := outcome_bind.mp hread
  obtain ⟨upper, hu, h⟩ := outcome_bind.mp h
  cases h
  exact ⟨lower, upper, hl, hu, rfl⟩

theorem TypeExpr.mapRef_array (f : TypeRef → TypeRef) (e : TypeExpr) :
    (array e).mapRef f = array (e.mapRef f) := by
  have href : (array e).typeRef? = e.typeRef? := rfl
  unfold mapRef
  rw [href]
  cases e.typeRef? <;> rfl

section OfProperty

variable (policy : OptionalityPolicy) (role : Role) (p : Property) (e : Element)

theorem Attribute.isArray_ofProperty :
    (ofProperty policy role p e).type.isArray = p.multiplicity.isMany := by
  simp only [ofProperty]
  cases hm : p.multiplicity.isMany with
  | true => rfl
  | false => cases hr : role.isReference p e <;> rfl

theorem Attribute.isReference_ofProperty :
    (ofProperty policy role p e).type.isReference = role.isReference p e := by
  simp only [ofProperty]
  cases hm : p.multiplicity.isMany <;> cases hr : role.isReference p e <;> rfl

theorem Attribute.flat_ofProperty {element : TypeExpr}
    (h : (ofProperty policy role p e).type = .array element) : element.isArray = false := by
  simp only [ofProperty] at h
  cases hm : p.multiplicity.isMany with
  | true =>
    simp only [hm, if_true, TypeExpr.array.injEq] at h
    rw [← h]
    cases role.isReference p e <;> rfl
  | false =>
    simp only [hm, Bool.false_eq_true, if_false] at h
    cases hr : role.isReference p e <;> simp [hr] at h

end OfProperty

namespace Source

variable {src : Source} {kind : TypeKind} (hk : src.kind?.bind TypeKind.ofText? = some kind)
include hk

/-- The simple type for a source, by its kind and its name. -/
theorem ofElement_element {name : String} (hn : src.name? = some name) :
    SimpleType.ofElement src.element = match src.primitive? with
      | some p => .primitive p
      | none => .named ⟨name, none⟩ := by
  rw [element_eq hk hn]
  unfold SimpleType.ofElement SimpleType.ofElement.ofTypeName primitive?
  rw [TypeKind.bind_ofText?_eq_some.mp hk, hn]
  cases hp : Primitive.ofTypeName? name <;> cases kind <;>
    simp [hp, TypeKind.form, TypeKind.text]

theorem isDataType_element : src.element.form.isDataType = false ↔
    src.kind? = some "uml:Class" ∨ src.kind? = some "uml:Interface" := by
  rw [element, hk, TypeKind.bind_ofText?_eq_some.mp hk]
  cases kind <;> simp [TypeKind.form, TypeKind.text, Form.isDataType]

end Source

namespace Node

variable {find : String → Option Node} {s : Settings} {role : Role} {c : Node} {src : Source}

theorem isReference_property (find : String → Option Node) (role : Role) {kind : TypeKind}
    (hk : src.kind?.bind TypeKind.ofText? = some kind) :
    role.isReference (c.property find) src.element = true ↔ c.RefersTo src role := by
  cases role with
  | owned =>
    have hplain : (c.property find).aggregation = .plain ↔ _ := Aggregation.ofText_eq_plain
    simp only [Role.isReference, Bool.and_eq_true, beq_iff_eq, Bool.not_eq_true', RefersTo,
      hplain, Source.isDataType_element hk, and_assoc]
  | associationEnd =>
    have hcomposite : (c.property find).aggregation = .composite ↔ _ :=
      Aggregation.ofText_eq_composite
    simp only [Role.isReference, bne_iff_ne, ne_eq, RefersTo, hcomposite]

theorem isOptional_property (find : String → Option Node) (policy : OptionalityPolicy)
    {lower upper : Nat} (hbounds : (c.property find).multiplicity = .ofBounds lower upper) :
    policy.isOptional (c.property find) = true ↔
      lower = 0 ∧ ¬ (policy = .alwaysRequired ∧ c.attr? "aggregation" = some "composite") := by
  have hzero : (c.property find).multiplicity.isOptional = true ↔ lower = 0 := by
    simp [hbounds, Multiplicity.isOptional, Multiplicity.ofBounds]
  have hcomposite : (c.property find).aggregation = .composite ↔
      c.attr? "aggregation" = some "composite" := Aggregation.ofText_eq_composite
  rw [← hcomposite, ← hzero]
  cases policy with
  | lowerBound => simp [OptionalityPolicy.isOptional]
  | alwaysRequired => simp [OptionalityPolicy.isOptional, and_comm]

/-- The attribute that is read off the node of a property is the right one. -/
theorem selects_propertyAttribute (s : Settings) (role : Role)
    (hsrc : c.typeSource? find = some src) {kind : TypeKind}
    (hk : src.kind?.bind TypeKind.ofText? = some kind) {typeName : String}
    (hn : src.name? = some typeName) {m : Multiplicity} (hm : c.multiplicity? = some m) :
    c.Selects s role src (c.propertyAttribute find s role) := by
  have helement : c.typeElement find = src.element := by
    simp only [typeElement, hsrc, Option.map_some, Option.getD_some]
  obtain ⟨lower, upper, hlower, hupper, rfl⟩ :=
    bounds_of_multiplicity? hm (c.propertyAttribute find s role).name
  have hbounds : (c.property find).multiplicity = .ofBounds lower upper := by
    simp only [property, hm, Option.getD_some]
  constructor
  · refine ⟨typeName, hn, ?_⟩
    change c.name?.getD (Text.lowerFirst (c.typeElement find).name) = _
    rw [helement, Source.element, hn, Option.getD_some]
  · rw [hlower, Except.ok.injEq]
    exact isOptional_property find s.compositeOptionality hbounds
  · rw [propertyAttribute, Attribute.isArray_ofProperty, hbounds, ← propertyAttribute, hupper]
    simp [Multiplicity.isMany, Multiplicity.ofBounds, Multiplicity.many]
  · intro e he
    exact Attribute.flat_ofProperty _ _ _ _ he
  · rw [propertyAttribute, Attribute.isReference_ofProperty, helement]
    exact isReference_property find role hk
  · have hinnermost : (c.propertyAttribute find s role).type.innermost = _ :=
      Attribute.innermost_ofProperty _ _ _ _
    rw [helement, Source.ofElement_element hk hn] at hinnermost
    unfold TypeExpr.primitive? TypeExpr.typeRef?
    rw [hinnermost]
    cases src.primitive? with
    | some p => rfl
    | none => exact ⟨_, rfl, hn⟩

/-- Changes to references that keep names do not matter. -/
theorem Selects.of_mapRef {f : TypeRef → TypeRef} (hf : ∀ ref, (f ref).name = ref.name)
    {a : Attribute} (h : c.Selects s role src (a.mapRef f)) : c.Selects s role src a where
  name := h.name
  optional := h.optional
  many := by
    have hmany := h.many
    rwa [Attribute.mapRef, TypeExpr.isArray_mapRef] at hmany
  flat e he := by
    have harray : (a.mapRef f).type = .array (e.mapRef f) := by
      rw [Attribute.mapRef, he]
      exact TypeExpr.mapRef_array f e
    have hflat := h.flat _ harray
    rwa [TypeExpr.isArray_mapRef] at hflat
  reference := by
    have hreference := h.reference
    rwa [Attribute.mapRef, TypeExpr.isReference_mapRef] at hreference
  innermost := by
    have hinnermost := h.innermost
    simp only [Attribute.mapRef, TypeExpr.primitive?_mapRef, TypeExpr.typeRef?_mapRef] at hinnermost
    cases hp : src.primitive? with
    | some p => simpa only [hp] using hinnermost
    | none =>
      simp only [hp] at hinnermost ⊢
      obtain ⟨ref, href, hname⟩ := hinnermost
      obtain ⟨ref', href', rfl⟩ := Option.map_eq_some_iff.mp href
      exact ⟨ref', href', by rw [hname, hf]⟩

theorem mem_propertyNodes_of_navigated {n : Node} {pair : Node × Node}
    (h : pair ∈ n.navigated find) : pair.1 ∈ n.propertyNodes := by
  unfold navigated endNodes at h
  cases ha : n.isAssociation with
  | false => simp [ha] at h
  | true =>
    rw [propertyNodes_of_isAssociation ha]
    simp only [ha, if_true] at h
    split at h
    next first second hends =>
      obtain ⟨k, -, rfl⟩ := List.mem_map.mp h
      rw [hends]
      split <;> simp
    next => cases h

theorem mem_propertyNodes_of_attributeNodes {n : Node} (h : c ∈ n.attributeNodes) :
    c ∈ n.propertyNodes := by
  unfold attributeNodes at h
  cases hclass : n.isClass with
  | false => simp [hclass] at h
  | true =>
    rw [propertyNodes_of_isClass hclass]
    simpa [hclass] using h

/-- An end that a node receives belongs to one of the associations. -/
theorem exists_association_of_receivedEnds {roots : List Node} {n : Node}
    (h : c ∈ n.receivedEnds find (roots.filter isAssociation)) :
    ∃ association ∈ roots, c ∈ association.propertyNodes := by
  obtain ⟨pair, hpair, rfl⟩ := List.mem_map.mp h
  obtain ⟨association, hassociation, hend⟩ := List.mem_flatMap.mp (List.mem_filter.mp hpair).1
  exact ⟨association, (List.mem_filter.mp hassociation).1, mem_propertyNodes_of_navigated hend⟩

theorem isSome_ofNode?_of_declaresInterface {n : Node} (h : n.declaresInterface = true) :
    (TypeKind.ofNode? n).isSome := by
  unfold declaresInterface at h
  simp only [Source.declaresInterface, decide_eq_true_eq] at h
  have hkind : n.kind? = (Source.node n).kind? := rfl
  unfold TypeKind.ofNode?
  rcases h with hk | hk | ⟨hk, -⟩ <;> simp [hkind, hk, TypeKind.ofText?]

section Needed

variable {ix : IdIndex} {roots : List Node}
  (hall : ∀ n : Node, n.Needed ix.get? roots → n.Sound ix.get?)
include hall

/-- An attribute that is read off a property of a needed node is the right one for it. -/
theorem exists_selects {n : Node} (hn : n.Needed ix.get? roots) (hc : c ∈ n.propertyNodes)
    {a : Attribute} (ha : c.propertyAttribute ix.get? s role = a.mapRef .unlinked) :
    ∃ src, c.TypedBy ix src ∧ c.Selects s role src a := by
  obtain ⟨htype, hbounds⟩ := (hall n hn).properties c hc
  obtain ⟨src, hsrc⟩ := Option.isSome_iff_exists.mp htype
  obtain ⟨m, hm⟩ := Option.isSome_iff_exists.mp hbounds
  have htyped := typeSource?_eq_some.mp hsrc
  obtain ⟨kind, hk⟩ := htyped.kind
  have hname : ∃ typeName, src.name? = some typeName := by
    cases src with
    | library href kind => exact ⟨_, rfl⟩
    | node t =>
      have hsome : (TypeKind.ofNode? t).isSome := Option.isSome_iff_exists.mpr ⟨kind, hk⟩
      exact Option.isSome_iff_exists.mp ((hall t (hn.of_typedBy hc htyped)).named hsome)
  obtain ⟨typeName, hname⟩ := hname
  have hselects := selects_propertyAttribute s role hsrc hk hname hm
  rw [ha] at hselects
  have hnames (ref : TypeRef) : ref.unlinked.name = ref.name := rfl
  exact ⟨src, htyped, hselects.of_mapRef hnames⟩

end Needed
end Node

/-- Whether the interfaces of a grammar have the right attributes: first one for each property of
their node, then one for each end that the node receives from an association. -/
def Grammar.Selects (s : Settings) (roots : List Node) (g : Grammar) : Prop :=
  List.Forall₂ (fun n i => n.name? = some i.name ∧ ∃ own inserted,
    i.attributes = own ++ inserted ∧
    List.Forall₂ (fun c a => ∃ src, c.TypedBy (.ofRoots roots) src ∧ c.Selects s .owned src a)
      n.attributeNodes own ∧
    List.Forall₂ (fun c a => ∃ src, c.TypedBy (.ofRoots roots) src ∧
      c.Selects s .associationEnd src a)
      (n.receivedEnds (IdIndex.ofRoots roots).get? (roots.filter Node.isAssociation)) inserted)
    (roots.filter Node.declaresInterface) g.interfaces

/-- The attributes of a grammar are the right ones for the nodes that it has been made from. -/
theorem transform_selects {s : Settings} {roots : List Node} {g : Grammar}
    (hap : Node.Apart roots) (hagree : Node.HrefsAgree roots) (hg : transform s roots = .ok g) :
    g.Selects s roots := by
  obtain ⟨hall, -, -⟩ := (exists_transform_iff hap hagree).mp ⟨g, hg⟩
  obtain ⟨hinterfaces, -, -⟩ := transform_eq_grammar hap hagree hg
  apply forall₂_imp_of_mem (map_eq_iff_forall₂.mp hinterfaces.symm)
  intro n hmem i heq
  obtain ⟨hn, hd⟩ := List.mem_filter.mp hmem
  constructor
  · have hnamed := (hall n (.root hn)).named (Node.isSome_ofNode?_of_declaresInterface hd)
    obtain ⟨name, hname⟩ := Option.isSome_iff_exists.mp hnamed
    have hsame := congrArg Interface.name heq
    simp only [Node.interface, hname, Option.getD_some] at hsame
    rw [hname, hsame]
    rfl
  · have hattributes := congrArg Interface.attributes heq
    obtain ⟨own, inserted, hsplit, hown, hinserted⟩ := List.map_eq_append_iff.mp hattributes.symm
    refine ⟨own, inserted, hsplit, ?_, ?_⟩
    · apply forall₂_imp_of_mem (map_eq_iff_forall₂.mp hown.symm)
      intro c hc a ha
      exact Node.exists_selects hall (.root hn) (Node.mem_propertyNodes_of_attributeNodes hc) ha
    · apply forall₂_imp_of_mem (map_eq_iff_forall₂.mp hinserted.symm)
      intro c hc a ha
      obtain ⟨association, hroot, hend⟩ := Node.exists_association_of_receivedEnds hc
      exact Node.exists_selects hall (.root hroot) hend ha

theorem machine_selects : Node.Apart machine ∧ Node.HrefsAgree machine ∧
    transform {} machine = .ok machineGrammar ∧ machineGrammar.Selects {} machine := by
  have hap : Node.Apart machine := by decide +kernel
  have hagree : Node.HrefsAgree machine := by decide +kernel
  exact ⟨hap, hagree, transform_machine, transform_selects hap hagree transform_machine⟩

end ClassGrammar
