import ClassGrammar.Proofs.Outlines.Declarations
import ClassGrammar.Transform

/-! Every reference of a grammar that a run produces is linked to a declaration of its name. -/
namespace ClassGrammar

/-- What an element declares of its own has no targets yet. -/
theorem Model.superTypes_unlinked {m : Model} {h : Handle} :
    ∀ ref ∈ m.superTypes h, ref.target = none := by
  intro ref href
  unfold superTypes at href
  split at href
  · obtain ⟨t, -, rfl⟩ := List.mem_map.mp href
    rfl
  · cases href

theorem Model.ownAttributes_unlinked {s : Settings} {m : Model} {h : Handle} :
    ∀ a ∈ m.ownAttributes s h, ∀ ref, a.type.typeRef? = some ref → ref.target = none := by
  intro a ha ref href
  unfold ownAttributes at ha
  split at ha
  · obtain ⟨p, -, rfl⟩ := List.mem_map.mp ha
    exact Attribute.ofProperty_unlinked href
  · cases ha

namespace Outline

theorem Recorded.added {s : Settings} {m : Model} {h : Handle} {o o' : Outline}
    (ho : o.Recorded) (ha : Added s m h o o') : o'.Recorded := by
  cases ha with
  | interface _ _ _ _ =>
    have hi := ho.addInterface h (i := ⟨(m.element h).name, m.superTypes h, []⟩) rfl
      Model.superTypes_unlinked
    exact hi.addAttributes (by simp [Outline.addInterface]) Model.ownAttributes_unlinked
  | union _ _ _ _ => exact ho.addUnion _
  | ends _ _ => exact ho.addEnds _

/-- The pending slots of a finished outline are the cells of its grammar. -/
theorem recorded_of_ofModel {s : Settings} {m : Model} {o : Outline}
    (h : ofModel s m = .ok o) : o.Recorded := by
  obtain ⟨o₁, h₁, h₂⟩ := outcome_bind.mp h
  have hr : o₁.Recorded :=
    addElements_run (I := fun _ o => o.Recorded)
      (fun _ _ _ _ ho ha => ho.added ha) (Recorded.start s) h₁
  exact insertEnds_run (I := fun _ o => o.Recorded)
    (fun _ _ o owner ho hl => ho.addAttribute (ho.owners _ _ hl)
      fun ref href => Attribute.ofProperty_unlinked href) hr h₂

end Outline

namespace Grammar

/-- A reference linked to an interface of its name. -/
def LinksInterface (g : Grammar) (ref : TypeRef) : Prop :=
  ∃ k i, ref.target = some (.interface k) ∧ g.interfaces[k]? = some i ∧ i.name = ref.name

/-- A reference linked to a union of its name, which no interface has. -/
def LinksUnion (g : Grammar) (ref : TypeRef) : Prop :=
  (∃ k u, ref.target = some (.union k) ∧ g.unions[k]? = some u ∧ u.name = ref.name) ∧
    ∀ i ∈ g.interfaces, i.name ≠ ref.name

/-- Super types are linked to interfaces, types of attributes to interfaces or unions. -/
structure Linked (g : Grammar) : Prop where
  superTypes : ∀ i ∈ g.interfaces, ∀ ref ∈ i.superTypes, g.LinksInterface ref
  types : ∀ i ∈ g.interfaces, ∀ a ∈ i.attributes, ∀ ref, a.type.typeRef? = some ref →
    g.LinksInterface ref ∨ g.LinksUnion ref

theorem Linked.isLinked {g : Grammar} (h : g.Linked) : g.isLinked = true := by
  simp only [Grammar.isLinked, List.all_eq_true, Bool.and_eq_true]
  refine fun i hi => ⟨fun ref href => ?_, fun a ha => ?_⟩
  · obtain ⟨k, j, ht, -⟩ := h.superTypes i hi ref href
    simp [TypeRef.isResolved, ht]
  · cases href : a.type.typeRef? with
    | none => rfl
    | some ref =>
      rcases h.types i hi a ha ref href with ⟨k, j, ht, -⟩ | ⟨⟨k, j, ht, -⟩, -⟩ <;>
        simp [TypeRef.isResolved, ht]

theorem links_of_resolve?_superType {g : Grammar} {ref : TypeRef} {k : Nat}
    (hs : ref.target.isSome) (ht : ref.target = g.resolve? ref.name (.superType k)) :
    g.LinksInterface ref := by
  rw [ht] at hs
  obtain ⟨t, hf⟩ := Option.isSome_iff_exists.mp hs
  obtain ⟨j, hj, rfl⟩ := Option.map_eq_some_iff.mp hf
  obtain ⟨i, hi, hn⟩ := interface_of_find hj
  exact ⟨j, i, ht.trans hf, hi, hn⟩

theorem links_of_resolve?_attribute {g : Grammar} {ref : TypeRef} {k : Nat}
    (hs : ref.target.isSome) (ht : ref.target = g.resolve? ref.name (.attribute k)) :
    g.LinksInterface ref ∨ g.LinksUnion ref := by
  cases hf : g.findInterface? ref.name with
  | some j =>
    obtain ⟨i, hi, hn⟩ := interface_of_find hf
    exact .inl ⟨j, i, by simp [ht, resolve?, hf], hi, hn⟩
  | none =>
    cases hu : g.findUnion? ref.name with
    | some j =>
      obtain ⟨u, hu', hn⟩ := union_of_find hu
      exact .inr ⟨⟨j, u, by simp [ht, resolve?, hf, hu], hu', hn⟩, findInterface?_eq_none.mp hf⟩
    | none => simp [ht, resolve?, hf, hu] at hs

/-- After linking all cells, each of them holds what the grammar has for its name. -/
theorem Links.target_eq {g g' : Grammar} {slots : List Slot} (h : g.Links slots g')
    (hall : ∀ slot, (g.cell? slot).isSome → slot ∈ slots) {slot : Slot} {ref : TypeRef}
    (hc : g'.cell? slot = some ref) :
    ref.target.isSome ∧ ref.target = g'.resolve? ref.name slot.place := by
  have hm : slot ∈ slots := by
    by_contra hn
    rw [h.cells, if_neg hn] at hc
    exact hn (hall slot (by rw [hc]; rfl))
  rw [h.cells, if_pos hm] at hc
  obtain ⟨r, hr, rfl⟩ := Option.map_eq_some_iff.mp hc
  exact ⟨h.declared slot hm r hr, (h.resolve?_eq r.name slot.place).symm⟩

/-- Linking all cells of a grammar leaves no reference open. -/
theorem Links.linked {g g' : Grammar} {slots : List Slot} (h : g.Links slots g')
    (hall : ∀ slot, (g.cell? slot).isSome → slot ∈ slots) : g'.Linked where
  superTypes i hi ref href := by
    obtain ⟨k, hk⟩ := List.getElem?_of_mem hi
    obtain ⟨j, hj⟩ := List.getElem?_of_mem href
    obtain ⟨hs, ht⟩ := h.target_eq hall (cell?_superType_eq_some.mpr ⟨i, hk, hj⟩)
    exact links_of_resolve?_superType hs ht
  types i hi a ha ref href := by
    obtain ⟨k, hk⟩ := List.getElem?_of_mem hi
    obtain ⟨j, hj⟩ := List.getElem?_of_mem ha
    obtain ⟨hs, ht⟩ := h.target_eq hall (cell?_attribute_eq_some.mpr ⟨i, a, hk, hj, href⟩)
    exact links_of_resolve?_attribute hs ht

end Grammar

/-- A successful run goes through a class model, an outline of it and a linked grammar. -/
theorem transform_eq_ok {s : Settings} {roots : List Node} {g : Grammar} :
    transform s roots = .ok g ↔ ∃ m o g', Model.ofNodes (IdIndex.ofRoots roots) roots = .ok m ∧
      Outline.ofModel s m = .ok o ∧ o.grammar.linked o.pending = .ok g' ∧
      g = g'.dedupePrimitives := by
  simp only [transform, outcome_bind, pure, Except.pure, Except.ok.injEq]
  constructor
  · rintro ⟨m, hm, o, ho, g', hg, rfl⟩
    exact ⟨m, o, g', hm, ho, hg, rfl⟩
  · rintro ⟨m, o, g', hm, ho, hg, rfl⟩
    exact ⟨m, hm, o, ho, g', hg, rfl⟩

/-- A successful run leaves no reference open: super types point at interfaces of their names,
types of attributes at interfaces or, for names that no interface has, at unions. -/
theorem transform_linked {s : Settings} {roots : List Node} {g : Grammar}
    (h : transform s roots = .ok g) : g.Linked ∧ g.isLinked = true := by
  obtain ⟨m, o, g', -, ho, hg, rfl⟩ := transform_eq_ok.mp h
  have hall slot := ((Outline.recorded_of_ofModel ho).cells slot).mpr
  have hl : g'.Linked := (Grammar.links_of_linked hg).linked hall
  have hd : g'.dedupePrimitives.Linked := ⟨hl.superTypes, hl.types⟩
  exact ⟨hd, hd.isLinked⟩

/-- Two classes and an enumeration, with an association that comes before them. -/
def machine : List Node := [
  .mk [.text "@_xmi:type" "uml:Association", .text "@_navigableOwnedEnd" "in out",
    .many "ownedEnd" [
      .mk [.text "@_xmi:id" "in", .text "@_type" "step",
        .one "upperValue" (.mk [.text "@_value" "*"])],
      .mk [.text "@_xmi:id" "out", .text "@_name" "target", .text "@_type" "state"]]],
  .mk [.text "@_xmi:type" "uml:Class", .text "@_xmi:id" "state", .text "@_name" "State",
    .one "ownedAttribute" (.mk [.text "@_name" "kind", .text "@_type" "kind"])],
  .mk [.text "@_xmi:type" "uml:Class", .text "@_xmi:id" "step", .text "@_name" "Step",
    .one "generalization" (.mk [.text "@_general" "state"]),
    .one "ownedAttribute" (.mk [.text "@_name" "next", .text "@_type" "step"])],
  .mk [.text "@_xmi:type" "uml:Enumeration", .text "@_xmi:id" "kind", .text "@_name" "Kind",
    .one "ownedLiteral" (.mk [.text "@_name" "final"])]]

def machineGrammar : Grammar where
  name := "MyGrammar"
  entryRule := "Model"
  interfaces := [
    ⟨"State", [], [
      ⟨"kind", false, .simple (.named ⟨"Kind", some (.union 0)⟩)⟩,
      ⟨"step", false, .array (.reference (.named ⟨"Step", some (.interface 1)⟩))⟩]⟩,
    ⟨"Step", [⟨"State", some (.interface 0)⟩], [
      ⟨"next", false, .reference (.named ⟨"Step", some (.interface 1)⟩)⟩,
      ⟨"target", false, .reference (.named ⟨"State", some (.interface 0)⟩)⟩]⟩]
  unions := [⟨"Kind", ["final"]⟩]

theorem transform_machine : transform {} machine = .ok machineGrammar := by decide +kernel

theorem machine_linked :
    transform {} machine = .ok machineGrammar ∧
      machineGrammar.Linked ∧ machineGrammar.isLinked = true :=
  ⟨transform_machine, transform_linked transform_machine⟩

end ClassGrammar
