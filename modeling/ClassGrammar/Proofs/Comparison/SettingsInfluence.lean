import ClassGrammar.Proofs.Linking.DeclaredHandles
import ClassGrammar.Proofs.Comparison.ClearedFlags

/-! What settings decide of a grammar. Two runs that treat associations alike go the same way; their
grammars differ in their headers, and in the flags of attributes as the policies say for the
properties that the attributes were made from. -/
namespace ClassGrammar

namespace Outline

/-- Whether two outlines are equal but for the headers and flags of their grammars. -/
structure SameShape (o o' : Outline) : Prop where
  grammar : o.grammar.SameShape o'.grammar
  owners : o'.owners = o.owners
  pending : o'.pending = o.pending
  ends : o'.ends = o.ends

namespace SameShape

variable {o o' : Outline}

theorem start (s s' : Settings) : (Outline.start s).SameShape (Outline.start s') :=
  ⟨⟨rfl, rfl, rfl⟩, rfl, rfl, rfl⟩

theorem checkUnique (ho : o.SameShape o') (name : String) :
    EndAlike Eq Eq (o.checkUnique name) (o'.checkUnique name) :=
  .of_eq (by simp only [Outline.checkUnique, ho.grammar.hasType])

theorem addInterface (ho : o.SameShape o') (h : Handle) (i : Interface) :
    (o.addInterface h i).SameShape (o'.addInterface h i) := by
  refine ⟨⟨?_, ho.grammar.unions, ho.grammar.primitives⟩, ?_, ?_, ho.ends⟩
  · simp only [Outline.addInterface, List.map_append, ho.grammar.interfaces]
  · simp only [Outline.addInterface, ho.grammar.length, ho.owners]
  · simp only [Outline.addInterface, ho.grammar.length, ho.pending]

theorem addUnion (ho : o.SameShape o') (u : Union) : (o.addUnion u).SameShape (o'.addUnion u) :=
  ⟨⟨ho.grammar.interfaces, congrArg (· ++ [u]) ho.grammar.unions, ho.grammar.primitives⟩,
    ho.owners, ho.pending, ho.ends⟩

theorem addAttribute (ho : o.SameShape o') (owner : Nat) {a a' : Attribute}
    (ha : a'.unflagged = a.unflagged) :
    (o.addAttribute owner a).SameShape (o'.addAttribute owner a') := by
  have htype : a'.type = a.type := by
    have ht := congrArg Attribute.type ha
    exact ht
  have happend (b : Attribute) : Function.Semiconj Interface.unflagged
      (fun i => { i with attributes := i.attributes ++ [b] })
      (fun i => { i with attributes := i.attributes ++ [b.unflagged] }) := by
    intro i
    simp only [Interface.unflagged, List.map_append, List.map_singleton]
  refine ⟨⟨?_, ho.grammar.unions, ?_⟩, ho.owners, ?_, ho.ends⟩
  · simp only [Outline.addAttribute]
    rw [map_modify (happend a), map_modify (happend a'), ho.grammar.interfaces, ha]
  · simp only [Outline.addAttribute, ho.grammar.primitives, htype]
  · simp only [Outline.addAttribute, ho.pending, htype, ho.grammar.attributes_length]

theorem addAttributes (ho : o.SameShape o') (owner : Nat) {as as' : List Attribute}
    (has : List.Forall₂ (fun a a' => a'.unflagged = a.unflagged) as as') :
    (o.addAttributes owner as).SameShape (o'.addAttributes owner as') := by
  induction has generalizing o o' with
  | nil => exact ho
  | cons ha _ ih => exact ih (ho.addAttribute owner ha)

end SameShape

section Pass

variable {o o' : Outline} {s s' : Settings} (m : Model)

/-- The policy of a run decides the flag of an attribute and nothing else of it. -/
theorem unflagged_ofProperty (policy policy' : OptionalityPolicy) (role : Role) (p : Property)
    (e : Element) : (Attribute.ofProperty policy' role p e).unflagged =
      (Attribute.ofProperty policy role p e).unflagged :=
  rfl

theorem addElement_sameShape (harity : s'.associationArity = s.associationArity)
    (ho : o.SameShape o') (h : Handle) :
    EndAlike Eq SameShape (addElement s m o h) (addElement s' m o' h) := by
  unfold addElement
  cases hf : (m.element h).form with
  | classifier isInterface attributes generalizations =>
    simp only [hf]
    apply (ho.checkUnique (m.element h).name).bind
    intro _ _ _
    rw [ho.grammar.length]
    refine .ok ((ho.addInterface h _).addAttributes _ ?_)
    rw [List.forall₂_map_left_iff, List.forall₂_map_right_iff, List.forall₂_same]
    intro p _
    exact unflagged_ofProperty _ _ _ p _
  | dataType =>
    simp only [hf]
    split
    · exact .ok ho
    · apply (ho.checkUnique (m.element h).name).bind
      intro _ _ _
      exact .ok (ho.addInterface h _)
  | primitiveType =>
    simp only [hf]
    exact .ok ho
  | enumeration literals =>
    simp only [hf]
    apply (ho.checkUnique (m.element h).name).bind
    intro _ _ _
    exact .ok (ho.addUnion _)
  | association first second tokens =>
    simp only [hf, harity]
    apply (EndAlike.of_eq rfl).bind
    rintro ends _ rfl
    exact .ok ⟨ho.grammar, ho.owners, ho.pending, congrArg (· ++ ends) ho.ends⟩

theorem addElements_sameShape (harity : s'.associationArity = s.associationArity)
    (ho : o.SameShape o') (hs : List Handle) :
    EndAlike Eq SameShape (addElements s m o hs) (addElements s' m o' hs) := by
  induction hs generalizing o o' with
  | nil => exact .ok ho
  | cons h rest ih =>
    apply (addElement_sameShape m harity ho h).bind
    intro o₁ o₁' h₁
    exact ih h₁

theorem insertEnd_sameShape (s s' : Settings) (ho : o.SameShape o') (e : NavigableEnd) :
    EndAlike Eq SameShape (insertEnd s m o e) (insertEnd s' m o' e) := by
  unfold insertEnd
  rw [ho.owners]
  cases o.owners.lookup e.receiver with
  | some owner => exact .ok (ho.addAttribute owner (unflagged_ofProperty _ _ _ _ _))
  | none => exact .error rfl

theorem insertEnds_sameShape (s s' : Settings) (ho : o.SameShape o') (es : List NavigableEnd) :
    EndAlike Eq SameShape (insertEnds s m o es) (insertEnds s' m o' es) := by
  induction es generalizing o o' with
  | nil => exact .ok ho
  | cons e rest ih =>
    apply (insertEnd_sameShape m s s' ho e).bind
    intro o₁ o₁' h₁
    exact ih h₁

theorem ofModel_sameShape (harity : s'.associationArity = s.associationArity) :
    EndAlike Eq SameShape (ofModel s m) (ofModel s' m) := by
  apply (addElements_sameShape m harity (.start s s') m.roots).bind
  intro o₁ o₁' h₁
  rw [h₁.ends]
  exact insertEnds_sameShape m s s' h₁ o₁.ends

end Pass

section Header

/-- Whether the grammar of an outline has the header that the settings give. -/
def Headed (s : Settings) (o : Outline) : Prop :=
  o.grammar.name = s.grammarName ∧ o.grammar.entryRule = s.entryRule

variable {s : Settings} {m : Model} {o o' : Outline}

theorem Headed.addAttributes (ho : o.Headed s) (owner : Nat) (as : List Attribute) :
    (o.addAttributes owner as).Headed s := by
  induction as generalizing o with
  | nil => exact ho
  | cons a rest ih =>
    apply ih
    exact ho

theorem Headed.added {h : Handle} (ho : o.Headed s) (ha : Added s m h o o') : o'.Headed s := by
  cases ha with
  | interface _ _ _ _ =>
    apply Headed.addAttributes
    exact ho
  | union _ _ _ _ => exact ho
  | ends _ _ => exact ho

theorem headed_of_ofModel (h : ofModel s m = .ok o) : o.Headed s := by
  obtain ⟨o₁, h₁, h₂⟩ := outcome_bind.mp h
  have hadded : o₁.Headed s :=
    addElements_run (I := fun _ o => o.Headed s) (fun _ _ _ _ ho ha => ho.added ha) ⟨rfl, rfl⟩ h₁
  exact insertEnds_run (I := fun _ o => o.Headed s) (fun _ _ _ _ ho _ => ho) hadded h₂

end Header
end Outline

namespace Model

/-- The properties that the attributes of an interface are made from, in their order. -/
def origins (m : Model) (h : Handle) : List (Role × Property) :=
  (m.ownProperties h).map (Role.owned, ·) ++ (m.receivedEnds h).map (Role.associationEnd, ·)

/-- The attribute for a property, as it is before it is linked. -/
def attributeFor (m : Model) (s : Settings) (origin : Role × Property) : Attribute :=
  .ofProperty s.compositeOptionality origin.1 origin.2 (m.element origin.2.type)

theorem withEnds_attributes (m : Model) (s : Settings) (h : Handle) :
    (Outline.withEnds s m (m.roots.flatMap m.ownEnds) h).attributes =
      (m.origins h).map (m.attributeFor s) := by
  rw [origins, List.map_append, List.map_map, List.map_map, Outline.withEnds,
    ownAttributes_eq_ownProperties, receivedEnds, List.map_map]
  rfl

end Model

namespace Grammar

/-- Whether a grammar is that of a model but for targets: its interfaces stand in the order of the
elements that declare them, and each attribute is made from the property at its position. -/
def MadeFrom (g : Grammar) (s : Settings) (m : Model) : Prop :=
  g.interfaces.map Interface.unlinked =
    (m.declaring m.roots).map (Outline.withEnds s m (m.roots.flatMap m.ownEnds))

theorem MadeFrom.exists_origin {g : Grammar} {s : Settings} {m : Model} (hg : g.MadeFrom s m)
    {k j : Nat} {i : Interface} {a : Attribute} (hi : g.interfaces[k]? = some i)
    (ha : i.attributes[j]? = some a) :
    ∃ h origin, (m.declaring m.roots)[k]? = some h ∧ (m.origins h)[j]? = some origin ∧
      a.mapRef .unlinked = m.attributeFor s origin := by
  have hk := congrArg (·[k]?) hg
  simp only [List.getElem?_map, hi, Option.map_some] at hk
  obtain ⟨h, hh, hmade⟩ := Option.map_eq_some_iff.mp hk.symm
  have hattributes : (m.origins h).map (m.attributeFor s) =
      i.attributes.map (Attribute.mapRef .unlinked) := by
    rw [← m.withEnds_attributes s h, hmade]
    rfl
  have hj := congrArg (·[j]?) hattributes
  simp only [List.getElem?_map, ha, Option.map_some] at hj
  obtain ⟨origin, horigin, hattribute⟩ := Option.map_eq_some_iff.mp hj
  exact ⟨h, origin, hh, horigin, hattribute.symm⟩

end Grammar

/-- How the flags of two attributes differ that were made from one property. -/
structure Attribute.FlagsApart (s s' : Settings) (p : Property) (a a' : Attribute) : Prop where
  same : s'.compositeOptionality = s.compositeOptionality → a'.isOptional = a.isOptional
  required : s.compositeOptionality = .lowerBound → s'.compositeOptionality = .alwaysRequired →
    a'.isOptional = (a.isOptional && p.aggregation != .composite)

/-- Whether two grammars of a model are equal but for what the settings decide. -/
structure Grammar.SettingsApart (s s' : Settings) (m : Model) (g g' : Grammar) : Prop where
  header : g.name = s.grammarName ∧ g.entryRule = s.entryRule
  header' : g'.name = s'.grammarName ∧ g'.entryRule = s'.entryRule
  shape : g.SameShape g'
  flags : ∀ (k j : Nat) (i i' : Interface) (a a' : Attribute),
    g.interfaces[k]? = some i → i.attributes[j]? = some a →
    g'.interfaces[k]? = some i' → i'.attributes[j]? = some a' →
    ∃ h origin, (m.declaring m.roots)[k]? = some h ∧ (m.origins h)[j]? = some origin ∧
      a.mapRef .unlinked = m.attributeFor s origin ∧
      a'.mapRef .unlinked = m.attributeFor s' origin ∧ a.FlagsApart s s' origin.2 a'

theorem Model.flagsApart {m : Model} {s s' : Settings} {origin : Role × Property}
    {a a' : Attribute} (ha : a.mapRef .unlinked = m.attributeFor s origin)
    (ha' : a'.mapRef .unlinked = m.attributeFor s' origin) : a.FlagsApart s s' origin.2 a' := by
  have hflag : a.isOptional = s.compositeOptionality.isOptional origin.2 :=
    congrArg Attribute.isOptional ha
  have hflag' : a'.isOptional = s'.compositeOptionality.isOptional origin.2 :=
    congrArg Attribute.isOptional ha'
  constructor
  · intro hpolicy
    rw [hflag, hflag', hpolicy]
  · intro hlower hrequired
    rw [hflag, hflag', hlower, hrequired]
    exact Bool.and_comm _ _

section Transform

variable {s s' : Settings} {roots : List Node} {g g' : Grammar} {m : Model}

theorem transform_sameShape (harity : s'.associationArity = s.associationArity)
    (roots : List Node) :
    EndAlike Eq Grammar.SameShape (transform s roots) (transform s' roots) := by
  apply (EndAlike.of_eq rfl).bind
  rintro m _ rfl
  apply (Outline.ofModel_sameShape m harity).bind
  intro o o' ho
  rw [ho.pending]
  apply (ho.grammar.linked o.pending).bind
  intro g g' hg
  exact .ok hg.dedupePrimitives

/-- A run gives its grammar the header of its settings and the attributes of its model. -/
theorem madeFrom_of_transform (hm : Model.ofNodes (.ofRoots roots) roots = .ok m)
    (hg : transform s roots = .ok g) :
    (g.name = s.grammarName ∧ g.entryRule = s.entryRule) ∧ g.MadeFrom s m := by
  obtain ⟨m', o, g₁, hm', ho, hlinked, rfl⟩ := transform_eq_ok.mp hg
  obtain rfl : m = m' := Except.ok.inj (hm.symm.trans hm')
  have hunlinked : g₁.unlinked = o.grammar := by
    rw [Grammar.unlinked_linked hlinked, (Outline.recorded_of_ofModel ho).unlinked_grammar]
  obtain ⟨hname, hentry⟩ := Outline.headed_of_ofModel ho
  refine ⟨⟨?_, ?_⟩, ?_⟩
  · rw [← hname, ← hunlinked]
    rfl
  · rw [← hentry, ← hunlinked]
    rfl
  · have hinterfaces := congrArg Grammar.interfaces hunlinked
    exact hinterfaces.trans (Outline.finished_of_ofModel ho).1

/-- Settings reach only what is theirs. Two runs over the same nodes that treat associations alike
succeed together or stop at the same fault. Their grammars have the headers of their settings and
are equal beyond that but for flags; where one run requires composite values, an attribute is
optional if it is so in the other run and comes from a property that is not composite. -/
theorem transform_settings (harity : s'.associationArity = s.associationArity)
    (roots : List Node) :
    EndAlike Eq (fun g g' => ∃ m, Model.ofNodes (.ofRoots roots) roots = .ok m ∧
      g.SettingsApart s s' m g') (transform s roots) (transform s' roots) := by
  have hsame := transform_sameShape harity roots
  cases hg : transform s roots with
  | error f =>
    rw [hg] at hsame
    obtain ⟨f', hf', rfl⟩ := hsame.exists_error
    rw [hf']
    exact .error rfl
  | ok g =>
    rw [hg] at hsame
    obtain ⟨g', hg', hshape⟩ := hsame.exists_ok
    obtain ⟨m, -, -, hm, -⟩ := transform_eq_ok.mp hg
    obtain ⟨hheader, hmade⟩ := madeFrom_of_transform hm hg
    obtain ⟨hheader', hmade'⟩ := madeFrom_of_transform hm hg'
    rw [hg']
    refine .ok ⟨m, hm, hheader, hheader', hshape, ?_⟩
    intro k j i i' a a' hi ha hi' ha'
    obtain ⟨h, origin, hh, horigin, hattribute⟩ := hmade.exists_origin hi ha
    obtain ⟨h', origin', hh', horigin', hattribute'⟩ := hmade'.exists_origin hi' ha'
    obtain rfl : h = h' := Option.some.inj (hh.symm.trans hh')
    obtain rfl : origin = origin' := Option.some.inj (horigin.symm.trans horigin')
    exact ⟨h, origin, hh, horigin, hattribute, hattribute', Model.flagsApart hattribute hattribute'⟩

end Transform

/-- A house may have a cellar and rooms, both composite, and a house next to it. -/
def estate : List Node := [
  .mk [.text "@_xmi:type" "uml:Association", .text "@_navigableOwnedEnd" "rooms house",
    .many "ownedEnd" [
      .mk [.text "@_xmi:id" "house", .text "@_type" "h", .one "lowerValue" (.mk [])],
      .mk [.text "@_xmi:id" "rooms", .text "@_name" "rooms", .text "@_type" "r",
        .text "@_aggregation" "composite", .one "lowerValue" (.mk []),
        .one "upperValue" (.mk [.text "@_value" "*"])]]],
  .mk [.text "@_xmi:type" "uml:Class", .text "@_xmi:id" "h", .text "@_name" "House",
    .many "ownedAttribute" [
      .mk [.text "@_name" "cellar", .text "@_type" "r", .text "@_aggregation" "composite",
        .one "lowerValue" (.mk [])],
      .mk [.text "@_name" "next", .text "@_type" "h", .one "lowerValue" (.mk [])]]],
  .mk [.text "@_xmi:type" "uml:Class", .text "@_xmi:id" "r", .text "@_name" "Room"]]

/-- The grammar of the estate, with the flag of its composite values. -/
def estateGrammar (name entryRule : String) (flag : Bool) : Grammar where
  name := name
  entryRule := entryRule
  interfaces := [
    ⟨"House", [], [
      ⟨"cellar", flag, .simple (.named ⟨"Room", some (.interface 1)⟩)⟩,
      ⟨"next", true, .reference (.named ⟨"House", some (.interface 0)⟩)⟩,
      ⟨"rooms", flag, .array (.simple (.named ⟨"Room", some (.interface 1)⟩))⟩]⟩,
    ⟨"Room", [], [⟨"house", true, .reference (.named ⟨"House", some (.interface 0)⟩)⟩]⟩]

theorem estate_settings :
    let s : Settings := ⟨"Estate", "House", .strict, .alwaysRequired⟩
    s.associationArity = ({} : Settings).associationArity ∧
      transform {} estate = .ok (estateGrammar "MyGrammar" "Model" true) ∧
      transform s estate = .ok (estateGrammar "Estate" "House" false) ∧
      ∃ m, Model.ofNodes (.ofRoots estate) estate = .ok m ∧
        (estateGrammar "MyGrammar" "Model" true).SettingsApart {} s m
          (estateGrammar "Estate" "House" false) := by
  intro s
  have hlower : transform {} estate = .ok (estateGrammar "MyGrammar" "Model" true) := by
    decide +kernel
  have hrequired : transform s estate = .ok (estateGrammar "Estate" "House" false) := by
    decide +kernel
  have harity : s.associationArity = ({} : Settings).associationArity := rfl
  have hboth := transform_settings harity estate
  rw [hlower] at hboth
  obtain ⟨g, hg, hapart⟩ := hboth.exists_ok
  obtain rfl : estateGrammar "Estate" "House" false = g :=
    Except.ok.inj (hrequired.symm.trans hg)
  exact ⟨harity, hlower, hrequired, hapart⟩

end ClassGrammar
