import ClassGrammar.Proofs.Texts.TextContent
import ClassGrammar.Proofs.Linking.RunsLinkAll

/-! What linking leaves behind, whether it succeeds or stops. The cells at the slots before the
first one with a fault are linked, and nothing else has changed. -/
namespace ClassGrammar

namespace TypeExpr

theorem content_withInnermost (t : TypeExpr) (ref ref' : TypeRef)
    (h : ref.unlinked = ref'.unlinked) :
    (t.withInnermost (.named ref)).content = (t.withInnermost (.named ref')).content := by
  induction t with
  | simple => simp [withInnermost, content, SimpleType.content, h]
  | reference => simp [withInnermost, content, h]
  | array e ih => simp [withInnermost, content, ih]

theorem content_mapRef_unlinked (t : TypeExpr) : (t.mapRef .unlinked).content = t.content := by
  unfold mapRef
  cases ht : t.typeRef? with
  | none => rfl
  | some ref =>
    have hself : t.withInnermost (.named ref) = t := by
      rw [← innermost_of_typeRef? ht, withInnermost_innermost]
    rw [t.content_withInnermost ref.unlinked ref rfl, hself]

end TypeExpr

namespace Grammar

variable {g g' : Grammar} {slots : List Slot}

theorem content_unlinked (g : Grammar) : g.unlinked.content = g.content := by
  have hattribute (a : Attribute) : (a.mapRef .unlinked).content = a.content := by
    simp only [Attribute.content, Attribute.mapRef, TypeExpr.content_mapRef_unlinked]
  simp only [content, unlinked, mapRefs, List.map_map]
  congr 1
  refine List.map_congr_left fun i _ => ?_
  simp only [Function.comp_apply, Interface.content, Interface.mapRefs, List.map_map,
    Function.comp_def, hattribute]
  rfl

/-- The text of a grammar depends only on what is left of it without targets. -/
theorem render_congr (h : g'.unlinked = g.unlinked) : g'.render = g.render := by
  rw [← render_content g', ← content_unlinked, h, content_unlinked, render_content]

/-- Whether a grammar is another one in which the cells at some slots are linked and nothing else is
changed. A cell is linked to the declaration of its own name. -/
structure LinksOnly (g : Grammar) (slots : List Slot) (g' : Grammar) : Prop where
  unlinked : g'.unlinked = g.unlinked
  interfaces : ∀ name, g'.findInterface? name = g.findInterface? name
  unions : ∀ name, g'.findUnion? name = g.findUnion? name
  text : g'.render = g.render
  kept : ∀ slot, slot ∉ slots → g'.cell? slot = g.cell? slot
  linked : ∀ slot ∈ slots, ∃ ref, g.cell? slot = some ref ∧
    g'.cell? slot = some { ref with target := g.resolve? ref.name slot.place }
  superTypes : ∀ k j, ⟨k, .superType j⟩ ∈ slots → ∃ ref,
    g'.cell? ⟨k, .superType j⟩ = some ref ∧ g'.LinksInterface ref
  types : ∀ k j, ⟨k, .attribute j⟩ ∈ slots → ∃ ref,
    g'.cell? ⟨k, .attribute j⟩ = some ref ∧ (g'.LinksInterface ref ∨ g'.LinksUnion ref)

theorem linksOnly_of_link (h : g.link slots = (g', none)) : g.LinksOnly slots g' := by
  have hlinks := links_of_link h
  have hunlinked : g'.unlinked = g.unlinked := by
    have hl := unlinked_link g slots
    rwa [h] at hl
  have hcell : ∀ slot ∈ slots, ∃ ref, g.cell? slot = some ref ∧
      g'.cell? slot = some { ref with target := g.resolve? ref.name slot.place } := by
    intro slot hm
    have hfault := link_fault g slots
    rw [h, eq_comm, List.findSome?_eq_none_iff] at hfault
    obtain ⟨ref, hc, -⟩ := slotFault?_eq_none.mp (hfault slot hm)
    exact ⟨ref, hc, by rw [hlinks.cells, if_pos hm, hc]; rfl⟩
  have htarget {slot : Slot} (hm : slot ∈ slots) : ∃ ref, g'.cell? slot = some ref ∧
      ref.target.isSome ∧ ref.target = g'.resolve? ref.name slot.place := by
    obtain ⟨ref, hc, hc'⟩ := hcell slot hm
    exact ⟨_, hc', hlinks.declared slot hm ref hc, (hlinks.resolve?_eq ref.name slot.place).symm⟩
  refine ⟨hunlinked, fun name => ?_, fun name => ?_, render_congr hunlinked, fun slot hm => ?_,
    hcell, fun k j hm => ?_, fun k j hm => ?_⟩
  · rw [findInterface?, interfaceTable, hlinks.names]
    rfl
  · rw [findUnion?, unionTable, hlinks.unions]
    rfl
  · rw [hlinks.cells, if_neg hm]
  · obtain ⟨ref, hc, hs, ht⟩ := htarget hm
    exact ⟨ref, hc, links_of_resolve?_superType hs ht⟩
  · obtain ⟨ref, hc, hs, ht⟩ := htarget hm
    exact ⟨ref, hc, links_of_resolve?_attribute hs ht⟩

/-- Linking goes through the slots before the first one with a fault, as if there were no others. -/
theorem exists_link_append (g : Grammar) (slots : List Slot) : ∃ done rest, slots = done ++ rest ∧
    g.link done = ((g.link slots).1, none) ∧
    (rest = [] ∧ (g.link slots).2 = none ∨ ∃ slot after f, rest = slot :: after ∧
      g.slotFault? slot = some f ∧ (g.link slots).2 = some f) := by
  induction slots generalizing g with
  | nil => exact ⟨[], [], rfl, rfl, .inl ⟨rfl, rfl⟩⟩
  | cons slot slots ih =>
    cases hs : g.linkSlot slot with
    | error f =>
      exact ⟨[], slot :: slots, rfl, by simp [link, hs],
        .inr ⟨slot, slots, f, rfl, linkSlot_eq_error.mp hs, by simp [link, hs]⟩⟩
    | ok g₁ =>
      obtain ⟨ref, t, -, -, hfill⟩ := linkSlot_eq_ok.mp hs
      obtain ⟨done, rest, hslots, hdone, hend⟩ := ih g₁
      refine ⟨slot :: done, rest, by rw [hslots, List.cons_append], ?_, ?_⟩
      · simp only [link, hs, hdone]
      · simpa only [link, hs, hfill, slotFault?_fill] using hend

/-- Linking any slots changes the grammar in cells only. The cells at the slots before the first one
with a fault are linked, whatever slots come after it; without a fault all of them are. -/
theorem link_effect (g : Grammar) (slots : List Slot) : ∃ done rest, slots = done ++ rest ∧
    g.link done = ((g.link slots).1, none) ∧ g.LinksOnly done (g.link slots).1 ∧
    (rest = [] ∧ (g.link slots).2 = none ∨ ∃ slot after f, rest = slot :: after ∧
      g.slotFault? slot = some f ∧ (g.link slots).2 = some f) := by
  obtain ⟨done, rest, hslots, hdone, hend⟩ := exists_link_append g slots
  exact ⟨done, rest, hslots, hdone, linksOnly_of_link hdone, hend⟩

/-- A slot may occur again. Here the second attribute is primitive, so its slot stops the pass. -/
example :
    let pets (item super : Option Target) : Grammar := {
      name := "Pets"
      entryRule := "Model"
      interfaces := [
        ⟨"Cat", [⟨"Pet", super⟩], [
          ⟨"kinds", false, .array (.array (.reference (.named ⟨"Kind", item⟩)))⟩,
          ⟨"age", false, .simple (.primitive .number)⟩]⟩,
        ⟨"Pet", [], []⟩]
      unions := [⟨"Kind", ["tame"]⟩] }
    (pets none none).link
        [⟨0, .attribute 0⟩, ⟨0, .attribute 0⟩, ⟨0, .attribute 1⟩, ⟨0, .superType 0⟩] =
      (pets (some (.union 0)) none,
        some (.missingElement "named attribute #1 of interface 0")) := by
  decide +kernel

end Grammar
end ClassGrammar
