import ClassGrammar.Proofs.Linking.DeclaredHandles

/-! Looking up a declaration by its name. A declaration takes its name over from any earlier one, so
lookup is exact only as long as each new name is checked. In an outline every name has been checked,
and linking declares nothing. -/
namespace ClassGrammar

namespace Grammar

/-- Whether lookup finds for each name just the declaration that has it, and no two declarations
have one name. -/
structure NamesExact (g : Grammar) : Prop where
  interfaces : ∀ name k, g.findInterface? name = some k ↔
    ∃ i, g.interfaces[k]? = some i ∧ i.name = name
  unions : ∀ name k, g.findUnion? name = some k ↔ ∃ u, g.unions[k]? = some u ∧ u.name = name
  apart : ∀ i ∈ g.interfaces, ∀ u ∈ g.unions, i.name ≠ u.name
  distinct : g.declared.Nodup

variable {g g' : Grammar}

/-- All that lookup needs is that names are distinct. -/
theorem namesExact_iff : g.NamesExact ↔ g.declared.Nodup := by
  constructor
  · intro h
    exact h.distinct
  · intro hn
    obtain ⟨hinterfaces, hunions, hapart⟩ := List.nodup_append.mp hn
    refine ⟨?_, ?_, ?_, hn⟩
    · intro name k
      rw [findInterface?, interfaceTable, lookup_nameTable_of_nodup hinterfaces,
        List.getElem?_map, Option.map_eq_some_iff]
    · intro name k
      rw [findUnion?, unionTable, lookup_nameTable_of_nodup hunions, List.getElem?_map,
        Option.map_eq_some_iff]
    · intro i hi u hu
      exact hapart i.name (List.mem_map_of_mem hi) u.name (List.mem_map_of_mem hu)

/-- The grammars that come from a grammar by linking slots, whether all of them are linked or one
of them stops the pass, and by listing the primitive types once, in any order. -/
inductive Reaches (g : Grammar) : Grammar → Prop where
  | refl : Reaches g g
  | link {g' : Grammar} (h : Reaches g g') (slots : List Slot) : Reaches g (g'.link slots).1
  | dedupePrimitives {g' : Grammar} (h : Reaches g g') : Reaches g g'.dedupePrimitives

theorem declared_linkSlot {slot : Slot} (h : g.linkSlot slot = .ok g') :
    g'.declared = g.declared := by
  obtain ⟨ref, t, -, -, rfl⟩ := linkSlot_eq_ok.mp h
  rw [declared, fill_names, fill_unions, declared]

theorem declared_link (g : Grammar) (slots : List Slot) :
    (g.link slots).1.declared = g.declared := by
  induction slots generalizing g with
  | nil => rfl
  | cons slot rest ih =>
    unfold link
    cases hs : g.linkSlot slot with
    | ok g₁ => exact (ih g₁).trans (declared_linkSlot hs)
    | error f => rfl

theorem Reaches.declared_eq (h : g.Reaches g') : g'.declared = g.declared := by
  induction h with
  | refl => rfl
  | link _ slots ih => exact (declared_link _ slots).trans ih
  | dedupePrimitives _ ih => exact ih

end Grammar

namespace Outline

variable {o : Outline}

/-- A new interface leaves lookup exact just when both tables were asked for its name. -/
theorem namesExact_addInterface {h : Handle} {i : Interface} :
    (o.addInterface h i).grammar.NamesExact ↔
      o.grammar.NamesExact ∧ o.checkUnique i.name = .ok () := by
  have hperm : (o.addInterface h i).grammar.declared.Perm (i.name :: o.grammar.declared) := by
    simp only [Grammar.declared, addInterface, List.map_append, List.map_singleton,
      List.append_assoc]
    exact List.perm_middle
  rw [Grammar.namesExact_iff, hperm.nodup_iff, List.nodup_cons, ← Grammar.namesExact_iff,
    checkUnique_eq_ok]
  exact and_comm

theorem namesExact_addUnion {u : Union} :
    (o.addUnion u).grammar.NamesExact ↔
      o.grammar.NamesExact ∧ o.checkUnique u.name = .ok () := by
  have hperm : (o.addUnion u).grammar.declared.Perm (u.name :: o.grammar.declared) := by
    simp only [Grammar.declared, addUnion, List.map_append, List.map_singleton,
      ← List.append_assoc]
    exact List.perm_append_singleton u.name _
  rw [Grammar.namesExact_iff, hperm.nodup_iff, List.nodup_cons, ← Grammar.namesExact_iff,
    checkUnique_eq_ok]
  exact and_comm

/-- Without a check the second of two declarations hides the first. -/
example :
    let o := (Outline.start {}).addInterface 0 ⟨"Car", [], []⟩
    o.grammar.findInterface? "Car" = some 0 ∧
      (o.addInterface 1 ⟨"Car", [], []⟩).grammar.findInterface? "Car" = some 1 := by
  decide +kernel

/-- In the grammar of a finished outline, and in all that come from it by linking, lookup is exact.
The declared names are those of the classes and data types in order, then of the enumerations. -/
theorem namesExact_of_ofModel {s : Settings} {m : Model} {g : Grammar}
    (ho : ofModel s m = .ok o) (hg : o.grammar.Reaches g) :
    g.NamesExact ∧
      g.declared = (m.declaring m.roots).map (fun h => (m.element h).name) ++
        (m.roots.filterMap m.union?).map (·.name) := by
  rw [Grammar.namesExact_iff, hg.declared_eq]
  exact ⟨nodup_declared_of_ofModel ho, declared_of_ofModel ho⟩

theorem garage_namesExact : ∃ o, ofModel {} garage = .ok o ∧
    o.grammar.Reaches (o.grammar.link o.pending).1.dedupePrimitives ∧
    (o.grammar.link o.pending).1.dedupePrimitives.NamesExact ∧
    (o.grammar.link o.pending).1.dedupePrimitives.declared =
      ["Car", "Person", "Size", "Thing", "Status"] := by
  have hok : (ofModel {} garage).toOption.isSome = true := by decide +kernel
  cases ho : ofModel {} garage with
  | error f => simp [ho, Except.toOption] at hok
  | ok o =>
    have hg : o.grammar.Reaches (o.grammar.link o.pending).1.dedupePrimitives :=
      (Grammar.Reaches.refl.link o.pending).dedupePrimitives
    obtain ⟨hexact, hdeclared⟩ := namesExact_of_ofModel ho hg
    refine ⟨o, rfl, hg, hexact, ?_⟩
    rw [hdeclared]
    decide +kernel

end Outline
end ClassGrammar
