import ClassGrammar.Proofs.Linking.CellLinking
import Mathlib.Data.List.Nodup

/-! The slots that an outline leaves to be linked. They are the cells of its grammar, each of them
once, whichever way super types, attributes of classes and association ends were added. -/
namespace ClassGrammar

theorem refAt?_default (p : Place) : Grammar.refAt? default p = none := by
  cases p <;> rfl

theorem refAt?_addAttribute (i : Interface) (a : Attribute) (p : Place) :
    Grammar.refAt? { i with attributes := i.attributes ++ [a] } p =
      if p = .attribute i.attributes.length then a.type.typeRef? else Grammar.refAt? i p := by
  match p with
  | .superType k => simp [Grammar.refAt?]
  | .attribute k =>
    simp only [Grammar.refAt?, Place.attribute.injEq, List.getElem?_append]
    by_cases hk : k < i.attributes.length
    · simp [hk, Nat.ne_of_lt hk]
    · by_cases he : k = i.attributes.length
      · simp [he]
      · have hn : (k - i.attributes.length) ≠ 0 := by omega
        simp [hk, he, hn]

namespace Grammar

theorem interface_of_getElem? {g : Grammar} {k : Nat} {i : Interface}
    (h : g.interfaces[k]? = some i) : g.interface k = i := by
  simp [Grammar.interface, List.getD_eq_getElem?_getD, h]

theorem interface_of_length_le {g : Grammar} {k : Nat} (h : g.interfaces.length ≤ k) :
    g.interface k = default := by
  simp [Grammar.interface, List.getD_eq_getElem?_getD, h]

theorem cell?_of_length_le {g : Grammar} {k : Nat} (h : g.interfaces.length ≤ k) (p : Place) :
    g.cell? ⟨k, p⟩ = none := by
  rw [cell?, interface_of_length_le h, refAt?_default]

theorem cell?_superType_eq_some {g : Grammar} {k j : Nat} {ref : TypeRef} :
    g.cell? ⟨k, .superType j⟩ = some ref ↔
      ∃ i, g.interfaces[k]? = some i ∧ i.superTypes[j]? = some ref := by
  cases hi : g.interfaces[k]? with
  | none => simp [cell?_of_length_le (List.getElem?_eq_none_iff.mp hi)]
  | some i => simp [cell?, interface_of_getElem? hi, refAt?]

theorem cell?_attribute_eq_some {g : Grammar} {k j : Nat} {ref : TypeRef} :
    g.cell? ⟨k, .attribute j⟩ = some ref ↔ ∃ i a, g.interfaces[k]? = some i ∧
      i.attributes[j]? = some a ∧ a.type.typeRef? = some ref := by
  cases hi : g.interfaces[k]? with
  | none => simp [cell?_of_length_le (List.getElem?_eq_none_iff.mp hi)]
  | some i => simp [cell?, interface_of_getElem? hi, refAt?, Option.bind_eq_some_iff]

end Grammar

namespace Outline

theorem cell?_addInterface (o : Outline) (h : Handle) (i : Interface) (slot : Slot) :
    (o.addInterface h i).grammar.cell? slot =
      if slot.owner = o.grammar.interfaces.length then Grammar.refAt? i slot.place
      else o.grammar.cell? slot := by
  simp only [Grammar.cell?, Grammar.interface, addInterface, List.getD_eq_getElem?_getD,
    List.getElem?_append]
  by_cases hk : slot.owner < o.grammar.interfaces.length
  · simp [hk, Nat.ne_of_lt hk]
  · by_cases he : slot.owner = o.grammar.interfaces.length
    · simp [he]
    · have hn : slot.owner - o.grammar.interfaces.length ≠ 0 := by omega
      simp [hk, he, hn]

@[simp] theorem addAttribute_length (o : Outline) (owner : Nat) (a : Attribute) :
    (o.addAttribute owner a).grammar.interfaces.length = o.grammar.interfaces.length := by
  simp [addAttribute]

theorem interface_addAttribute {o : Outline} {owner : Nat} (a : Attribute)
    (hk : owner < o.grammar.interfaces.length) (k : Nat) :
    (o.addAttribute owner a).grammar.interface k =
      if k = owner then
        { o.grammar.interface k with attributes := (o.grammar.interface k).attributes ++ [a] }
      else o.grammar.interface k := by
  simp only [Grammar.interface, addAttribute, List.getD_eq_getElem?_getD, List.getElem?_modify]
  by_cases ho : k = owner
  · subst ho
    simp [hk]
  · simp [ho, Ne.symm ho]

theorem cell?_addAttribute {o : Outline} {owner : Nat} (a : Attribute)
    (hk : owner < o.grammar.interfaces.length) (slot : Slot) :
    (o.addAttribute owner a).grammar.cell? slot =
      if slot = ⟨owner, .attribute (o.grammar.interface owner).attributes.length⟩
        then a.type.typeRef? else o.grammar.cell? slot := by
  obtain ⟨k, p⟩ := slot
  simp only [Grammar.cell?, interface_addAttribute a hk, Slot.mk.injEq]
  by_cases ho : k = owner
  · subst ho
    simp [refAt?_addAttribute]
  · simp [ho]

/-- The pending slots are the cells, each once and without a target. -/
structure Recorded (o : Outline) : Prop where
  nodup : o.pending.Nodup
  cells : ∀ slot, slot ∈ o.pending ↔ (o.grammar.cell? slot).isSome
  unlinked : ∀ slot ref, o.grammar.cell? slot = some ref → ref.target = none
  owners : ∀ h k, o.owners.lookup h = some k → k < o.grammar.interfaces.length

namespace Recorded

theorem start (s : Settings) : (Outline.start s).Recorded where
  nodup := List.nodup_nil
  cells slot := by
    rw [show (Outline.start s).grammar.cell? slot = none from
      Grammar.cell?_of_length_le (Nat.zero_le _) slot.place]
    simp [Outline.start]
  unlinked slot ref h := by
    rw [show (Outline.start s).grammar.cell? slot = none from
      Grammar.cell?_of_length_le (Nat.zero_le _) slot.place] at h
    cases h
  owners h k hk := by cases hk

/-- An interface without attributes brings the slots of its super types. -/
theorem addInterface {o : Outline} (ho : o.Recorded) (h : Handle) {i : Interface}
    (ha : i.attributes = []) (hs : ∀ ref ∈ i.superTypes, ref.target = none) :
    (o.addInterface h i).Recorded where
  nodup := by
    refine List.nodup_append.mpr ⟨ho.nodup, ?_, ?_⟩
    · exact List.nodup_range.map fun j k hjk => by simpa using hjk
    · rintro slot hslot other hother rfl
      obtain ⟨j, -, rfl⟩ := List.mem_map.mp hother
      have hc := (ho.cells _).mp hslot
      rw [Grammar.cell?_of_length_le (Nat.le_refl _)] at hc
      cases hc
  cells slot := by
    obtain ⟨k, p⟩ := slot
    rw [cell?_addInterface]
    by_cases hk : k = o.grammar.interfaces.length
    · subst hk
      have hold : (⟨o.grammar.interfaces.length, p⟩ : Slot) ∉ o.pending := by
        rw [ho.cells, Grammar.cell?_of_length_le (Nat.le_refl _)]
        simp
      obtain j | j := p
      · simp [Outline.addInterface, hold, Grammar.refAt?, ha]
      · simp [Outline.addInterface, hold, Grammar.refAt?]
    · simp [Outline.addInterface, ho.cells, hk, Ne.symm hk]
  unlinked slot ref hc := by
    rw [cell?_addInterface] at hc
    split at hc
    · rcases hp : slot.place with j | j
      · simp [hp, Grammar.refAt?, ha] at hc
      · rw [hp] at hc
        exact hs ref (List.mem_of_getElem? hc)
    · exact ho.unlinked slot ref hc
  owners h' k hk := by
    simp only [Outline.addInterface, List.lookup_cons] at hk
    simp only [Outline.addInterface, List.length_append, List.length_singleton]
    split at hk
    · simp_all
    · have := ho.owners h' k hk
      omega

theorem addUnion {o : Outline} (ho : o.Recorded) (u : Union) : (o.addUnion u).Recorded :=
  ⟨ho.nodup, ho.cells, ho.unlinked, ho.owners⟩

theorem addEnds {o : Outline} (ho : o.Recorded) (es : List NavigableEnd) :
    { o with ends := es }.Recorded :=
  ⟨ho.nodup, ho.cells, ho.unlinked, ho.owners⟩

/-- An attribute brings a slot at its own position when its type has a name. -/
theorem addAttribute {o : Outline} (ho : o.Recorded) {owner : Nat}
    (hk : owner < o.grammar.interfaces.length) {a : Attribute}
    (ha : ∀ ref, a.type.typeRef? = some ref → ref.target = none) :
    (o.addAttribute owner a).Recorded := by
  -- The new position has no cell yet, so its slot cannot be pending already.
  have hnew : o.grammar.cell?
      ⟨owner, .attribute (o.grammar.interface owner).attributes.length⟩ = none := by
    simp [Grammar.cell?, Grammar.refAt?]
  have hold : (⟨owner, .attribute (o.grammar.interface owner).attributes.length⟩ : Slot) ∉
      o.pending := by
    rw [ho.cells, hnew]
    simp
  refine ⟨?_, fun slot => ?_, fun slot ref hc => ?_, fun h k hl => ?_⟩
  · unfold Outline.addAttribute
    dsimp only
    split
    · refine List.nodup_append.mpr ⟨ho.nodup, List.nodup_singleton _, ?_⟩
      rintro slot hslot other hother rfl
      exact hold (List.mem_singleton.mp hother ▸ hslot)
    · exact ho.nodup
  · rw [cell?_addAttribute a hk]
    by_cases hs : slot = ⟨owner, .attribute (o.grammar.interface owner).attributes.length⟩
    · subst hs
      cases ht : a.type.typeRef? <;> simp [Outline.addAttribute, ht, hold]
    · cases ht : a.type.typeRef? <;> simp [Outline.addAttribute, ht, hs, ho.cells]
  · rw [cell?_addAttribute a hk] at hc
    split at hc
    · exact ha ref hc
    · exact ho.unlinked slot ref hc
  · rw [addAttribute_length]
    exact ho.owners h k hl

theorem addAttributes {o : Outline} (ho : o.Recorded) {owner : Nat}
    (hk : owner < o.grammar.interfaces.length) {as : List Attribute}
    (has : ∀ a ∈ as, ∀ ref, a.type.typeRef? = some ref → ref.target = none) :
    (o.addAttributes owner as).Recorded := by
  induction as generalizing o with
  | nil => exact ho
  | cons a rest ih =>
    refine ih (ho.addAttribute hk (has a List.mem_cons_self)) ?_ fun b hb =>
      has b (List.mem_cons_of_mem a hb)
    rw [addAttribute_length]
    exact hk

end Recorded
end Outline
end ClassGrammar
