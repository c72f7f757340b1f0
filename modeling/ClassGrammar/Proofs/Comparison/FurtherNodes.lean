import ClassGrammar.Proofs.Models.AppendedNodes
import ClassGrammar.Proofs.Comparison.NodeOrder

/-! What further top-level nodes do to a grammar. Declarations stay in their places with all that
they refer to, and interfaces may only get more attributes at the end. -/
namespace ClassGrammar

/-- Whether an interface is another one with further attributes at the end. -/
structure Interface.ExtendsTo (i i' : Interface) : Prop where
  name : i'.name = i.name
  superTypes : i'.superTypes = i.superTypes
  attributes : i.attributes <+: i'.attributes

/-- Whether a grammar keeps the declarations of another one in their places. References are compared
with their targets, which are positions of declarations. -/
structure Grammar.ExtendsTo (g g' : Grammar) : Prop where
  interfaces : ∃ first rest, g'.interfaces = first ++ rest ∧
    List.Forall₂ Interface.ExtendsTo g.interfaces first
  unions : g.unions <+: g'.unions
  primitives : g.primitives ⊆ g'.primitives

namespace Model

variable {s : Settings} {m m' : Model} {h : Handle}

theorem Begins.element (hb : m.Begins m') (hlt : h < m.size) : m'.element h = m.element h := by
  have he := List.prefix_iff_getElem?.mp hb.elements h hlt
  rw [element_of_getElem? he, element_of_getElem? (List.getElem?_eq_getElem hlt)]

theorem exists_mem_generalizations {t : Handle} (ht : t ∈ m.generals h) :
    ∃ g ∈ (m.element h).generalizations, t ∈ g.targets := by
  unfold generals at ht
  split at ht
  next hf =>
    simp only [Element.generalizations, hf]
    exact List.mem_flatMap.mp ht
  next => cases ht

theorem mem_properties_of_ownProperties {p : Property} (hp : p ∈ m.ownProperties h) :
    p ∈ (m.element h).properties := by
  unfold ownProperties at hp
  split at hp
  next hf =>
    simp only [Element.properties, hf]
    exact hp
  next => cases hp

theorem mem_properties_of_ownEnds {e : NavigableEnd} (he : e ∈ m.ownEnds h) :
    e.property ∈ (m.element h).properties := by
  unfold ownEnds at he
  unfold Element.properties
  cases hf : (m.element h).form with
  | association first second tokens =>
    simp only [hf] at he
    obtain ⟨k, -, rfl⟩ := List.mem_map.mp he
    simp only [endAt]
    split <;> simp
  | _ => simp [hf] at he

section Begins

variable (hb : m.Begins m') (hs : m.Scoped)
include hb

theorem Begins.union?_eq (hlt : h < m.size) : m'.union? h = m.union? h := by
  simp only [union?, hb.element hlt]

theorem Begins.ownEnds_eq (hlt : h < m.size) : m'.ownEnds h = m.ownEnds h := by
  simp only [ownEnds, hb.element hlt]

include hs

theorem Begins.superTypes_eq (hlt : h < m.size) : m'.superTypes h = m.superTypes h := by
  have hsame : m'.generals h = m.generals h := by simp only [generals, hb.element hlt]
  rw [superTypes_eq_generals, superTypes_eq_generals, hsame]
  refine List.map_congr_left fun t ht => ?_
  obtain ⟨g, hg, htarget⟩ := exists_mem_generalizations ht
  rw [hb.element (hs.targets _ (mem_elements_of_lt hlt) g hg t htarget)]

theorem Begins.ownAttributes_eq (hlt : h < m.size) :
    m'.ownAttributes s h = m.ownAttributes s h := by
  have hsame : m'.ownProperties h = m.ownProperties h := by
    simp only [ownProperties, hb.element hlt]
  rw [ownAttributes_eq_ownProperties, ownAttributes_eq_ownProperties, hsame]
  refine List.map_congr_left fun p hp => ?_
  have hp' := mem_properties_of_ownProperties hp
  rw [hb.element (hs.types _ (mem_elements_of_lt hlt) p hp')]

/-- An interface keeps the attributes that it has from old associations, before those that it gets
from new ones. -/
theorem Begins.withEnds_extends {es more : List NavigableEnd}
    (hes : ∀ e ∈ es, ∃ a ∈ m.roots, e ∈ m.ownEnds a) (hlt : h < m.size) :
    (Outline.withEnds s m es h).ExtendsTo (Outline.withEnds s m' (es ++ more) h) where
  name := by rw [Outline.withEnds, Outline.withEnds, hb.element hlt]
  superTypes := hb.superTypes_eq hs hlt
  attributes := by
    have hends : (es.filter (·.receiver = h)).map (m'.endAttribute s ·.property) =
        (es.filter (·.receiver = h)).map (m.endAttribute s ·.property) := by
      refine List.map_congr_left fun e he => ?_
      obtain ⟨a, ha, hown⟩ := hes e (List.mem_of_mem_filter he)
      have hp := mem_properties_of_ownEnds hown
      rw [endAttribute, endAttribute,
        hb.element (hs.types _ (mem_elements_of_lt (hs.roots a ha)) e.property hp)]
    simp only [Outline.withEnds, hb.ownAttributes_eq hs hlt, List.filter_append, List.map_append,
      hends]
    rw [← List.append_assoc]
    exact List.prefix_append _ _

end Begins
end Model

theorem primitivesOf_subset {is is' first rest : List Interface} (hi : is' = first ++ rest)
    (hall : List.Forall₂ Interface.ExtendsTo is first) : primitivesOf is ⊆ primitivesOf is' := by
  intro p hp
  obtain ⟨a, ha, hpa⟩ := List.mem_filterMap.mp hp
  obtain ⟨i, him, hai⟩ := List.mem_flatMap.mp ha
  obtain ⟨i', him', he⟩ := exists_of_forall₂ hall him
  have hmem : i' ∈ is' := hi ▸ List.mem_append_left rest him'
  exact List.mem_filterMap.mpr ⟨a, List.mem_flatMap.mpr ⟨i', hmem, he.attributes.subset hai⟩, hpa⟩

/-- The outline of a model that begins with another one extends the outline of that. -/
theorem Outline.extendsTo_of_begins {s : Settings} {m m' : Model} {o o' : Outline}
    (hb : m.Begins m') (hs : m.Scoped) (ho : ofModel s m = .ok o) (ho' : ofModel s m' = .ok o') :
    o.grammar.ExtendsTo o'.grammar := by
  obtain ⟨hi, hu⟩ := finished_of_ofModel ho
  obtain ⟨hi', hu'⟩ := finished_of_ofModel ho'
  obtain ⟨more, hmore⟩ := hb.roots
  have hdeclaring : m'.declaring m'.roots = m.declaring m.roots ++ m'.declaring more := by
    rw [← hmore, Model.declaring, List.filter_append]
    congr 1
    refine List.filter_congr fun h hh => ?_
    rw [hb.element (hs.roots h hh)]
  have hends : m'.roots.flatMap m'.ownEnds =
      m.roots.flatMap m.ownEnds ++ more.flatMap m'.ownEnds := by
    rw [← hmore, List.flatMap_append]
    congr 1
    exact List.flatMap_congr fun h hh => hb.ownEnds_eq (hs.roots h hh)
  have hunions : o'.grammar.unions = o.grammar.unions ++ more.filterMap m'.union? := by
    rw [hu', hu, ← hmore, List.filterMap_append]
    congr 1
    exact List.filterMap_congr fun h hh => hb.union?_eq (hs.roots h hh)
  have hall : List.Forall₂ Interface.ExtendsTo o.grammar.interfaces
      ((m.declaring m.roots).map (withEnds s m' (m'.roots.flatMap m'.ownEnds))) := by
    rw [hi, hends, List.forall₂_map_left_iff, List.forall₂_map_right_iff, List.forall₂_same]
    intro h hh
    exact hb.withEnds_extends hs (fun e he => List.mem_flatMap.mp he)
      (hs.roots h (List.mem_of_mem_filter hh))
  rw [hdeclaring, List.map_append] at hi'
  refine ⟨⟨_, _, hi', hall⟩, hunions ▸ List.prefix_append _ _, fun p hp => ?_⟩
  rw [(noted_of_ofModel ho).mem_iff] at hp
  rw [(noted_of_ofModel ho').mem_iff]
  exact primitivesOf_subset hi' hall hp

namespace Grammar.ExtendsTo

variable {g g' : Grammar} {name : String}

theorem names (he : g.ExtendsTo g') :
    g.interfaces.map (·.name) <+: g'.interfaces.map (·.name) := by
  obtain ⟨first, rest, hi, hall⟩ := he.interfaces
  have hnames : g.interfaces.map (·.name) = first.map (·.name) :=
    map_eq_iff_forall₂.mpr (hall.imp fun _ _ h => h.name.symm)
  rw [hi, List.map_append, hnames]
  exact List.prefix_append _ _

theorem findInterface?_eq (he : g.ExtendsTo g') (hn : g'.declared.Nodup)
    (h : name ∈ g.interfaces.map (·.name)) : g'.findInterface? name = g.findInterface? name :=
  lookup_nameTable_of_prefix he.names (List.nodup_append.mp hn).1 h

theorem findUnion?_eq (he : g.ExtendsTo g') (hn : g'.declared.Nodup)
    (h : name ∈ g.unions.map (·.name)) : g'.findUnion? name = g.findUnion? name :=
  lookup_nameTable_of_prefix (he.unions.map _) (List.nodup_append.mp hn).2.1 h

/-- A name that stood for a union does not come to stand for a new interface, since no two
declarations have one name. -/
theorem resolve?_attribute_eq (he : g.ExtendsTo g') (hn : g'.declared.Nodup)
    (h : name ∈ g.declared) (k : Nat) :
    g'.resolve? name (.attribute k) = g.resolve? name (.attribute k) := by
  by_cases hi : name ∈ g.interfaces.map (·.name)
  · obtain ⟨j, hj⟩ := Option.isSome_iff_exists.mp (Grammar.findInterface?_isSome.mpr hi)
    simp [Grammar.resolve?, he.findInterface?_eq hn hi, hj]
  · have hu : name ∈ g.unions.map (·.name) := (List.mem_append.mp h).resolve_left hi
    have hu' : name ∈ g'.unions.map (·.name) := (he.unions.map _).subset hu
    have hi' : name ∉ g'.interfaces.map (·.name) := fun hmem =>
      (List.nodup_append.mp hn).2.2 name hmem name hu' rfl
    have hnone {f : Grammar} (h : name ∉ f.interfaces.map (·.name)) :
        f.findInterface? name = none := by
      rw [← Option.not_isSome_iff_eq_none, Grammar.findInterface?_isSome]
      exact h
    simp only [Grammar.resolve?, hnone hi, hnone hi', he.findUnion?_eq hn hu]

theorem resolve?_superType_eq (he : g.ExtendsTo g') (hn : g'.declared.Nodup)
    (h : name ∈ g.interfaces.map (·.name)) (k : Nat) :
    g'.resolve? name (.superType k) = g.resolve? name (.superType k) := by
  simp only [Grammar.resolve?, he.findInterface?_eq hn h]

/-- Linking a closed grammar and one that extends it gives grammars of which one extends the
other. -/
theorem resolved (he : g.ExtendsTo g') (hc : g.Closed) (hn : g'.declared.Nodup) :
    g.resolved.ExtendsTo g'.resolved := by
  obtain ⟨first, rest, hi, hall⟩ := he.interfaces
  refine ⟨?_, he.unions, he.primitives⟩
  simp only [Grammar.resolved, Grammar.mapRefs, hi, List.map_append]
  refine ⟨_, _, rfl, ?_⟩
  rw [List.forall₂_map_left_iff, List.forall₂_map_right_iff]
  refine forall₂_imp_of_mem hall fun i him i' hext => ?_
  have hsupers : i.superTypes.map (g'.lookUp (.superType 0)) =
      i.superTypes.map (g.lookUp (.superType 0)) := by
    refine List.map_congr_left fun ref href => ?_
    simp only [Grammar.lookUp, he.resolve?_superType_eq hn (hc.superTypes i him ref href)]
  have hattributes : i.attributes.map (Attribute.mapRef (g'.lookUp (.attribute 0))) =
      i.attributes.map (Attribute.mapRef (g.lookUp (.attribute 0))) := by
    refine List.map_congr_left fun a ha => ?_
    unfold Attribute.mapRef TypeExpr.mapRef
    cases href : a.type.typeRef? with
    | none => rfl
    | some ref =>
      simp only [Grammar.lookUp, he.resolve?_attribute_eq hn (hc.types i him a ha ref href)]
  refine ⟨hext.name, ?_, ?_⟩
  · simp only [Interface.mapRefs, hext.superTypes, hsupers]
  · simp only [Interface.mapRefs, ← hattributes]
    exact hext.attributes.map _

theorem dedupePrimitives (he : g.ExtendsTo g') :
    g.dedupePrimitives.ExtendsTo g'.dedupePrimitives where
  interfaces := he.interfaces
  unions := he.unions
  primitives _ hp := Primitive.mem_dedupe.mpr (he.primitives (Primitive.mem_dedupe.mp hp))

end Grammar.ExtendsTo

/-- Further top-level nodes with identifiers of their own leave all declarations where they are.
They may add declarations after them and attributes at the end of interfaces. -/
theorem transform_append {s : Settings} {first second : List Node} {g g' : Grammar}
    (hids : ∀ id ∈ Node.ids second, id ∉ Node.ids first) (h : transform s first = .ok g)
    (h' : transform s (first ++ second) = .ok g') : g.ExtendsTo g' := by
  obtain ⟨m, o, gl, hm, ho, hlinked, rfl⟩ := transform_eq_ok.mp h
  obtain ⟨m', o', gl', hm', ho', hlinked', rfl⟩ := transform_eq_ok.mp h'
  have hrecorded := Outline.recorded_of_ofModel ho
  have hclosed : o.grammar.Closed := hrecorded.exists_linked_iff.mp ⟨gl, hlinked⟩
  have houtlines : o.grammar.ExtendsTo o'.grammar :=
    Outline.extendsTo_of_begins (Model.begins_of_ofNodes hids hm hm') (Model.scoped_of_ofNodes hm)
      ho ho'
  rw [hrecorded.eq_resolved hlinked, (Outline.recorded_of_ofModel ho').eq_resolved hlinked']
  exact (houtlines.resolved hclosed (Outline.nodup_declared_of_ofModel ho')).dedupePrimitives

/-- A class that specializes a class of the machine, and an association between them. -/
def timer : List Node := [
  .mk [.text "@_xmi:type" "uml:Class", .text "@_xmi:id" "timer", .text "@_name" "Timer",
    .one "generalization" (.mk [.text "@_general" "state"]),
    .one "ownedAttribute" (.mk [.text "@_name" "limit",
      .one "type" (.mk [.text "@_xmi:type" "uml:PrimitiveType", .text "@_href" "types#Integer"])])],
  .mk [.text "@_xmi:type" "uml:Association", .text "@_xmi:id" "watch",
    .text "@_navigableOwnedEnd" "watch.timer",
    .many "ownedEnd" [
      .mk [.text "@_xmi:id" "watch.state", .text "@_type" "state"],
      .mk [.text "@_xmi:id" "watch.timer", .text "@_type" "timer"]]]]

def timedGrammar : Grammar where
  name := "MyGrammar"
  entryRule := "Model"
  interfaces := [
    ⟨"State", [], [
      ⟨"kind", false, .simple (.named ⟨"Kind", some (.union 0)⟩)⟩,
      ⟨"step", false, .array (.reference (.named ⟨"Step", some (.interface 1)⟩))⟩,
      ⟨"timer", false, .reference (.named ⟨"Timer", some (.interface 2)⟩)⟩]⟩,
    ⟨"Step", [⟨"State", some (.interface 0)⟩], [
      ⟨"next", false, .reference (.named ⟨"Step", some (.interface 1)⟩)⟩,
      ⟨"target", false, .reference (.named ⟨"State", some (.interface 0)⟩)⟩]⟩,
    ⟨"Timer", [⟨"State", some (.interface 0)⟩], [
      ⟨"limit", false, .simple (.primitive .bigint)⟩]⟩]
  unions := [⟨"Kind", ["final"]⟩]
  primitives := [.bigint]

theorem transform_timed : transform {} (machine ++ timer) = .ok timedGrammar := by decide +kernel

theorem machine_timed : (∀ id ∈ Node.ids timer, id ∉ Node.ids machine) ∧
    transform {} machine = .ok machineGrammar ∧
    transform {} (machine ++ timer) = .ok timedGrammar ∧ machineGrammar.ExtendsTo timedGrammar := by
  have hids : ∀ id ∈ Node.ids timer, id ∉ Node.ids machine := by decide +kernel
  exact ⟨hids, transform_machine, transform_timed,
    transform_append hids transform_machine transform_timed⟩

end ClassGrammar
