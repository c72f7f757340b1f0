import ClassGrammar.Proofs.Outlines.DescribedElements

/-! Nodes and models that say the same under other identifiers. Visibilities may differ, and so may
all that a node says about nothing that is read. -/
namespace ClassGrammar

/-- Whether two faults have the same cause. What they say of the place may differ. -/
inductive Fault.SameCause : Fault → Fault → Prop
  | unrecognizedKind (kind : Option String) (context context' : String) :
      SameCause (.unrecognizedKind kind context) (.unrecognizedKind kind context')
  | danglingReference (reference reference' context context' : String) :
      SameCause (.danglingReference reference context) (.danglingReference reference' context')
  | associationArity (association association' : String) (count : Nat) :
      SameCause (.associationArity association count) (.associationArity association' count)
  | missingAttribute (name name' : String) :
      SameCause (.missingAttribute name) (.missingAttribute name')
  | missingElement (name name' : String) :
      SameCause (.missingElement name) (.missingElement name')
  | refl (f : Fault) : SameCause f f

section

variable (s : String → String)

/-- Whether two faults have the same cause, and the same texts when no identifier is changed. -/
structure Fault.Alike (f f' : Fault) : Prop where
  cause : f.SameCause f'
  text : (∀ t, s t = t) → f = f'

instance : Std.Refl (Fault.Alike s) := ⟨fun f => ⟨.refl f, fun _ => rfl⟩⟩

namespace Node

/-- Whether the attributes of a second node are those of a first one under other identifiers. -/
structure SameAttributes (n n' : Node) : Prop where
  id : n'.id? = n.id?.map s
  type : n'.attr? "type" = (n.attr? "type").map s
  general : n'.attr? "general" = (n.attr? "general").map s
  tokens : n'.navigableTokens = n.navigableTokens.map s
  kind : n'.kind? = n.kind?
  name : n'.name? = n.name?
  aggregation : n'.attr? "aggregation" = n.attr? "aggregation"
  value : n'.attr? "value" = n.attr? "value"
  href : n'.attr? "href" = n.attr? "href"

/-- Whether two trees are the same under other identifiers, tag by tag. -/
inductive Alike : Node → Node → Prop
  | intro {n n' : Node} (attributes : n.SameAttributes s n')
      (children : ∀ tag, List.Forall₂ Alike (n.children tag) (n'.children tag)) : Alike n n'

namespace Alike

variable {s} {n n' : Node}

theorem attributes (h : n.Alike s n') : n.SameAttributes s n' := by
  cases h
  assumption

theorem children (h : n.Alike s n') (tag : String) :
    List.Forall₂ (Alike s) (n.children tag) (n'.children tag) := by
  cases h with
  | intro _ children => exact children tag

theorem child? (h : n.Alike s n') (tag : String) :
    Option.Rel (Alike s) (n.child? tag) (n'.child? tag) := by
  unfold Node.child?
  match n.children tag, n'.children tag, h.children tag with
  | _, _, .nil => exact .none
  | _, _, .cons hr _ => exact .some hr

theorem ofNode? (h : n.Alike s n') : TypeKind.ofNode? n' = TypeKind.ofNode? n := by
  rw [TypeKind.ofNode?, TypeKind.ofNode?, h.attributes.kind]

/-- Fault messages name a node in the same way when no identifier is changed. -/
theorem describe (h : n.Alike s n') (hs : ∀ t, s t = t) : n'.describe = n.describe := by
  have hid : n'.id? = n.id? := by rw [h.attributes.id, funext hs, Option.map_id']
  simp only [Node.describe, h.attributes.name, hid]

theorem readLower (h : n.Alike s n') (name : String) : readLower n' name = readLower n name := by
  have hc := h.child? "lowerValue"
  unfold ClassGrammar.readLower
  match n.child? "lowerValue", n'.child? "lowerValue", hc with
  | _, _, .some hr => simp only [hr.attributes.value]
  | _, _, .none => rfl

theorem readUpper (h : n.Alike s n') (name : String) : readUpper n' name = readUpper n name := by
  have hc := h.child? "upperValue"
  unfold ClassGrammar.readUpper
  match n.child? "upperValue", n'.child? "upperValue", hc with
  | _, _, .some hr => simp only [Option.bind_some, hr.attributes.value]
  | _, _, .none => rfl

theorem readMultiplicity (h : n.Alike s n') (name : String) :
    readMultiplicity n' name = readMultiplicity n name := by
  simp only [ClassGrammar.readMultiplicity, h.readLower, h.readUpper]

end Alike
end Node

structure Property.Alike (p p' : Property) : Prop where
  id : p'.id = p.id.map s
  name : p'.name = p.name
  multiplicity : p'.multiplicity = p.multiplicity
  aggregation : p'.aggregation = p.aggregation
  type : p'.type = p.type

inductive Form.Alike : Form → Form → Prop
  | classifier {isInterface : Bool} {attributes attributes' : List Property}
      {generalizations generalizations' : List Generalization}
      (members : List.Forall₂ (Property.Alike s) attributes attributes')
      (targets : generalizations'.map (·.targets) = generalizations.map (·.targets)) :
      Alike (.classifier isInterface attributes generalizations)
        (.classifier isInterface attributes' generalizations')
  | dataType : Alike .dataType .dataType
  | primitiveType : Alike .primitiveType .primitiveType
  | enumeration {literals literals' : List Literal}
      (names : literals'.map (·.name) = literals.map (·.name)) :
      Alike (.enumeration literals) (.enumeration literals')
  | association {p p' q q' : Property} {tokens : List String} (first : p.Alike s p')
      (second : q.Alike s q') : Alike (.association p q tokens) (.association p' q' (tokens.map s))

structure Element.Alike (e e' : Element) : Prop where
  id : e'.id = e.id.map s
  name : e'.name = e.name
  form : e.form.Alike s e'.form

/-- Whether two models have the same elements under other identifiers, at the same handles. -/
structure Model.Alike (m m' : Model) : Prop where
  elements : List.Forall₂ (Element.Alike s) m.elements m'.elements
  roots : m'.roots = m.roots

end

section

variable {s : String → String}

theorem Property.Alike.inAssociation {p p' : Property} (h : p.Alike s p')
    (association : Option Handle) :
    { p with association := association }.Alike s { p' with association := association } :=
  ⟨h.id, h.name, h.multiplicity, h.aggregation, h.type⟩

theorem TypeKind.form_alike {literals literals' : List Literal}
    (h : literals'.map (·.name) = literals.map (·.name)) (kind : TypeKind) :
    (kind.form literals).Alike s (kind.form literals') := by
  cases kind with
  | classType => exact .classifier .nil rfl
  | interfaceType => exact .classifier .nil rfl
  | dataType => exact .dataType
  | primitiveType => exact .primitiveType
  | enumeration => exact .enumeration h

namespace Element.Alike

variable {e e' : Element}

theorem withMembers (h : e.Alike s e') {attributes attributes' : List Property}
    {generalizations generalizations' : List Generalization}
    (members : List.Forall₂ (Property.Alike s) attributes attributes')
    (targets : generalizations'.map (·.targets) = generalizations.map (·.targets)) :
    (e.withMembers attributes generalizations).Alike s
      (e'.withMembers attributes' generalizations') := by
  obtain ⟨id, name, visibility, f⟩ := e
  obtain ⟨id', name', visibility', f'⟩ := e'
  have hform : f.Alike s f' := h.form
  refine ⟨by simpa using h.id, by simpa using h.name, ?_⟩
  cases hform with
  | classifier _ _ => exact .classifier members targets
  | dataType => exact .dataType
  | primitiveType => exact .primitiveType
  | enumeration names => exact .enumeration names
  | association first second => exact .association first second

/-- Fault messages name an element in the same way when no identifier is changed. -/
theorem describe (h : e.Alike s e') (hs : ∀ t, s t = t) : e'.describe = e.describe := by
  have hid : e'.id = e.id := by rw [h.id, funext hs, Option.map_id']
  simp only [Element.describe, h.name, hid]

theorem isDataType (h : e.Alike s e') : e'.form.isDataType = e.form.isDataType := by
  match e.form, e'.form, h.form with
  | _, _, .classifier _ _ | _, _, .dataType | _, _, .primitiveType | _, _, .enumeration _
  | _, _, .association _ _ => rfl

theorem simpleType (h : e.Alike s e') : SimpleType.ofElement e' = SimpleType.ofElement e := by
  unfold SimpleType.ofElement
  rw [h.name]
  match e.form, e'.form, h.form with
  | _, _, .classifier _ _ | _, _, .dataType | _, _, .primitiveType | _, _, .enumeration _
  | _, _, .association _ _ => rfl

end Element.Alike

namespace Model.Alike

variable {m m' : Model}

theorem size (h : m.Alike s m') : m'.size = m.size := h.elements.length_eq.symm

theorem element (h : m.Alike s m') (a : Handle) : (m.element a).Alike s (m'.element a) := by
  have hdefault : (default : Element).Alike s default := ⟨rfl, rfl, .dataType⟩
  have hall := h.elements
  simp only [Model.element]
  generalize m.elements = es at hall ⊢
  generalize m'.elements = es' at hall ⊢
  induction hall generalizing a with
  | nil => simpa using hdefault
  | cons hhead _ ih =>
    cases a with
    | zero => exact hhead
    | succ k => simpa using ih k

theorem setMembers (h : m.Alike s m') (a : Handle) {attributes attributes' : List Property}
    {generalizations generalizations' : List Generalization}
    (members : List.Forall₂ (Property.Alike s) attributes attributes')
    (targets : generalizations'.map (·.targets) = generalizations.map (·.targets)) :
    (m.setMembers a attributes generalizations).Alike s
      (m'.setMembers a attributes' generalizations') := by
  refine ⟨?_, h.roots⟩
  have hall := h.elements
  simp only [Model.setMembers]
  generalize m.elements = es at hall ⊢
  generalize m'.elements = es' at hall ⊢
  induction hall generalizing a with
  | nil => simp
  | cons hhead htail ih =>
    cases a with
    | zero => exact .cons (hhead.withMembers members targets) htail
    | succ k => exact .cons hhead (ih k)

end Model.Alike
end
end ClassGrammar
