import ClassGrammar.Proofs.Linking.PendingSlots
import Mathlib.Tactic.IntervalCases

/-! What a top-level element declares: an interface with attributes of its own, a union, or ends
of an association. Adding an element to an outline adds just this. -/
namespace ClassGrammar

/-- The ends of an association that become attributes. Two navigable tokens select both, one token
the end that has it as identifier or name, or the second if the first has it not. -/
def selectedEnds (first : Property) : List String → List Nat
  | [_, _] => [0, 1]
  | [token] => if first.id = some token ∨ first.name = token then [0] else [1]
  | _ => []

def endAt (first second : Property) (k : Nat) : Property := if k = 0 then first else second

theorem navigableEnds?_eq (first second : Property) (tokens : List String) :
    (navigableEnds? first second tokens).getD [] = selectedEnds first tokens := by
  match tokens with
  | [] => rfl
  | [token] =>
    simp only [navigableEnds?, selectedEnds, endIndex?, List.findIdx?_cons, List.findIdx?_nil,
      Bool.or_eq_true, beq_iff_eq]
    by_cases h : first.id = some token ∨ first.name = token
    · simp [h]
    · by_cases h' : second.id = some token ∨ second.name = token <;> simp [h, h']
  | [_, _] => rfl
  | _ :: _ :: _ :: _ => rfl

theorem NavigableEnd.ofPosition_eq (e : Element) (first second : Property) {k : Nat} (hk : k ≤ 1) :
    NavigableEnd.ofPosition e first second k =
      ⟨e, endAt first second k, (endAt first second (1 - k)).type⟩ := by
  interval_cases k <;> rfl

theorem selectedEnds_le_one {first : Property} {tokens : List String} {k : Nat}
    (hk : k ∈ selectedEnds first tokens) : k ≤ 1 := by
  unfold selectedEnds at hk
  split at hk
  · simp at hk
    omega
  · split at hk <;> simp at hk <;> omega
  · simp at hk

/-- Classes declare an interface, and so do data types that are not primitive. -/
def Element.declaresInterface (e : Element) : Bool :=
  match e.form with
  | .classifier _ _ _ => true
  | .dataType => (Primitive.ofTypeName? e.name).isNone
  | _ => false

namespace Model

/-- The super types of a class are the targets of its generalizations. -/
def superTypes (m : Model) (h : Handle) : List TypeRef :=
  match (m.element h).form with
  | .classifier _ _ generalizations =>
      (generalizations.flatMap (·.targets)).map fun t => ⟨(m.element t).name, none⟩
  | _ => []

/-- The attributes for the properties of a class. -/
def ownAttributes (s : Settings) (m : Model) (h : Handle) : List Attribute :=
  match (m.element h).form with
  | .classifier _ attributes _ =>
      attributes.map fun p => .ofProperty s.compositeOptionality .owned p (m.element p.type)
  | _ => []

/-- The union of an enumeration. -/
def union? (m : Model) (h : Handle) : Option Union :=
  let e := m.element h
  match e.form with
  | .enumeration literals => some ⟨e.name, literals.map (·.name)⟩
  | _ => none

/-- The selected ends of an association, each with the type of the other end. -/
def ownEnds (m : Model) (h : Handle) : List NavigableEnd :=
  let e := m.element h
  match e.form with
  | .association first second tokens => (selectedEnds first tokens).map fun k =>
      ⟨e, endAt first second k, (endAt first second (1 - k)).type⟩
  | _ => []

end Model

theorem ArityPolicy.select_ok {policy : ArityPolicy} {e : Element} {first second : Property}
    {tokens : List String} {ends : List NavigableEnd}
    (h : policy.select e first second tokens = .ok ends) :
    ends = (selectedEnds first tokens).map fun k =>
      ⟨e, endAt first second k, (endAt first second (1 - k)).type⟩ := by
  have hmap : (selectedEnds first tokens).map (NavigableEnd.ofPosition e first second) =
      (selectedEnds first tokens).map fun k =>
        ⟨e, endAt first second k, (endAt first second (1 - k)).type⟩ :=
    List.map_congr_left fun k hk =>
      NavigableEnd.ofPosition_eq e first second (selectedEnds_le_one hk)
  rw [← hmap, ← navigableEnds?_eq first second]
  unfold ArityPolicy.select at h
  cases hp : navigableEnds? first second tokens with
  | some positions =>
    rw [hp] at h
    cases h
    rfl
  | none =>
    rw [hp] at h
    cases policy with
    | strict => cases h
    | lenient =>
      cases h
      rfl

theorem Attribute.innermost_ofProperty (policy : OptionalityPolicy) (role : Role) (p : Property)
    (e : Element) :
    (Attribute.ofProperty policy role p e).type.innermost = SimpleType.ofElement e := by
  simp only [Attribute.ofProperty]
  split <;> split <;> rfl

/-- Attributes come without targets. -/
theorem Attribute.ofProperty_unlinked {policy : OptionalityPolicy} {role : Role} {p : Property}
    {e : Element} {ref : TypeRef}
    (h : (Attribute.ofProperty policy role p e).type.typeRef? = some ref) : ref.target = none := by
  have hel : ∀ ref, SimpleType.ofElement e = .named ref → ref.target = none := by
    intro ref href
    unfold SimpleType.ofElement SimpleType.ofElement.ofTypeName at href
    split at href
    · split at href <;> cases href
      rfl
    · split at href <;> cases href
      rfl
    · cases href
      rfl
  rw [TypeExpr.typeRef?, innermost_ofProperty] at h
  split at h
  next ref' href =>
    cases h
    exact hel _ href
  next => cases h

namespace Outline

theorem checkUnique_eq_ok {o : Outline} {name : String} {u : Unit} :
    o.checkUnique name = .ok u ↔ name ∉ o.grammar.declared := by
  rw [← Grammar.hasType_iff, checkUnique]
  cases o.grammar.hasType name <;> simp

/-- All that adding a top-level element can do to an outline. -/
inductive Added (s : Settings) (m : Model) (h : Handle) (o : Outline) : Outline → Prop where
  | interface (declares : (m.element h).declaresInterface = true) (noUnion : m.union? h = none)
      (noEnds : m.ownEnds h = []) (fresh : (m.element h).name ∉ o.grammar.declared) :
      Added s m h o ((o.addInterface h ⟨(m.element h).name, m.superTypes h, []⟩).addAttributes
        o.grammar.interfaces.length (m.ownAttributes s h))
  | union {u : Union} (noInterface : (m.element h).declaresInterface = false)
      (own : m.union? h = some u) (noEnds : m.ownEnds h = [])
      (fresh : u.name ∉ o.grammar.declared) : Added s m h o (o.addUnion u)
  | ends (noInterface : (m.element h).declaresInterface = false) (noUnion : m.union? h = none) :
      Added s m h o { o with ends := o.ends ++ m.ownEnds h }

theorem added_of_addElement {s : Settings} {m : Model} {o o' : Outline} {h : Handle}
    (ha : addElement s m o h = .ok o') : Added s m h o o' := by
  unfold addElement at ha
  cases hf : (m.element h).form with
  | classifier isInterface attributes generalizations =>
    simp only [hf] at ha
    obtain ⟨u, hu, ho⟩ := outcome_bind.mp ha
    cases ho
    have hi := Added.interface (s := s) (m := m) (h := h) (o := o)
      (by simp only [Element.declaresInterface, hf]) (by simp only [Model.union?, hf])
      (by simp only [Model.ownEnds, hf]) (checkUnique_eq_ok.mp hu)
    simpa only [Model.superTypes, Model.ownAttributes, hf] using hi
  | dataType =>
    simp only [hf] at ha
    split at ha
    next hp =>
      cases ha
      have he := Added.ends (s := s) (m := m) (h := h) (o := o)
        (by simpa [Element.declaresInterface, hf] using hp) (by simp only [Model.union?, hf])
      simpa only [Model.ownEnds, hf, List.append_nil] using he
    next hp =>
      obtain ⟨u, hu, ho⟩ := outcome_bind.mp ha
      cases ho
      have hi := Added.interface (s := s) (m := m) (h := h) (o := o)
        (by simpa [Element.declaresInterface, hf] using hp) (by simp only [Model.union?, hf])
        (by simp only [Model.ownEnds, hf]) (checkUnique_eq_ok.mp hu)
      simpa only [Model.superTypes, Model.ownAttributes, hf, addAttributes] using hi
  | primitiveType =>
    simp only [hf] at ha
    cases ha
    have he := Added.ends (s := s) (m := m) (h := h) (o := o)
      (by simp only [Element.declaresInterface, hf]) (by simp only [Model.union?, hf])
    simpa only [Model.ownEnds, hf, List.append_nil] using he
  | enumeration literals =>
    simp only [hf] at ha
    obtain ⟨u, hu, ho⟩ := outcome_bind.mp ha
    cases ho
    exact .union (by simp only [Element.declaresInterface, hf]) (by simp only [Model.union?, hf])
      (by simp only [Model.ownEnds, hf]) (checkUnique_eq_ok.mp hu)
  | association first second tokens =>
    simp only [hf] at ha
    obtain ⟨ends, hends, ho⟩ := outcome_bind.mp ha
    cases ho
    have he := Added.ends (s := s) (m := m) (h := h) (o := o)
      (by simp only [Element.declaresInterface, hf]) (by simp only [Model.union?, hf])
    simpa only [Model.ownEnds, hf, ArityPolicy.select_ok hends] using he

/-- Inserting an end adds an attribute to the interface that was made for its receiver. -/
theorem insertEnd_eq_ok {s : Settings} {m : Model} {o o' : Outline} {e : NavigableEnd} :
    insertEnd s m o e = .ok o' ↔ ∃ owner, o.owners.lookup e.receiver = some owner ∧
      o' = o.addAttribute owner (.ofProperty s.compositeOptionality .associationEnd e.property
        (m.element e.property.type)) := by
  unfold insertEnd
  cases o.owners.lookup e.receiver <;> simp [eq_comm]

section Runs

variable {s : Settings} {m : Model}

/-- What holds after each added element holds after all of them. -/
theorem addElements_run {I : List Handle → Outline → Prop}
    (step : ∀ done h o o', I done o → Added s m h o o' → I (done ++ [h]) o')
    {hs : List Handle} {o o' : Outline} (ho : I [] o) (ha : addElements s m o hs = .ok o') :
    I hs o' := by
  suffices hgen : ∀ done o, I done o → addElements s m o hs = .ok o' → I (done ++ hs) o' from
    hgen [] o ho ha
  clear ho ha
  induction hs with
  | nil =>
    intro done o ho ha
    cases ha
    rwa [List.append_nil]
  | cons h rest ih =>
    intro done o ho ha
    obtain ⟨o₁, h₁, hrest⟩ := outcome_bind.mp ha
    have hi := ih (done ++ [h]) o₁ (step done h o o₁ ho (added_of_addElement h₁)) hrest
    rwa [List.append_assoc] at hi

theorem insertEnds_run {I : List NavigableEnd → Outline → Prop}
    (step : ∀ done e o owner, I done o → o.owners.lookup e.receiver = some owner →
      I (done ++ [e]) (o.addAttribute owner (.ofProperty s.compositeOptionality .associationEnd
        e.property (m.element e.property.type))))
    {es : List NavigableEnd} {o o' : Outline} (ho : I [] o) (hi : insertEnds s m o es = .ok o') :
    I es o' := by
  suffices hgen : ∀ done o, I done o → insertEnds s m o es = .ok o' → I (done ++ es) o' from
    hgen [] o ho hi
  clear ho hi
  induction es with
  | nil =>
    intro done o ho hi
    cases hi
    rwa [List.append_nil]
  | cons e rest ih =>
    intro done o ho hi
    obtain ⟨o₁, h₁, hrest⟩ := outcome_bind.mp hi
    obtain ⟨owner, howner, rfl⟩ := insertEnd_eq_ok.mp h₁
    have hi := ih (done ++ [e]) _ (step done e o owner ho howner) hrest
    rwa [List.append_assoc] at hi

end Runs
end Outline
end ClassGrammar
