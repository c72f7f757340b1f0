import ClassGrammar.Proofs.Linking.RunsLinkAll
import ClassGrammar.Proofs.Linking.LinkedOutcome

/-! Which references dangle. The pending slots of an outline are the places of its references, each
once and without a target. So linking an outline can only stop at a name without a declaration, and
it stops at the first one. -/
namespace ClassGrammar

namespace Grammar

variable {g : Grammar}

/-- The fault of a reference whose name has no declaration that its place allows. -/
inductive Dangles (g : Grammar) : Slot → Fault → Prop where
  | superType {k j : Nat} {i : Interface} {ref : TypeRef} (owner : g.interfaces[k]? = some i)
      (reference : i.superTypes[j]? = some ref)
      (undeclared : ref.name ∉ g.interfaces.map (·.name)) :
      Dangles g ⟨k, .superType j⟩
        (.danglingReference ref.name s!"super type of interface '{i.name}'")
  | type {k j : Nat} {i : Interface} {a : Attribute} {ref : TypeRef}
      (owner : g.interfaces[k]? = some i) (member : i.attributes[j]? = some a)
      (reference : a.type.typeRef? = some ref) (undeclared : ref.name ∉ g.declared) :
      Dangles g ⟨k, .attribute j⟩
        (.danglingReference ref.name s!"type of attribute '{a.name}' of interface '{i.name}'")

theorem slotFault?_superType {k j : Nat} {i : Interface} {ref : TypeRef}
    (hi : g.interfaces[k]? = some i) (href : i.superTypes[j]? = some ref) :
    g.slotFault? ⟨k, .superType j⟩ = if ref.name ∈ g.interfaces.map (·.name) then none
      else some (.danglingReference ref.name s!"super type of interface '{i.name}'") := by
  have hc : g.cell? ⟨k, .superType j⟩ = some ref := cell?_superType_eq_some.mpr ⟨i, hi, href⟩
  have hdeclared : (g.resolve? ref.name (.superType j)).isSome ↔
      ref.name ∈ g.interfaces.map (·.name) := resolve?_superType_isSome
  unfold slotFault? site
  cases ht : g.resolve? ref.name (.superType j) <;> rw [ht] at hdeclared
  · simp only [hc, ht, interface_of_getElem? hi, ← hdeclared, Option.isSome_none,
      Bool.false_eq_true, if_false]
  · simp only [hc, ht, ← hdeclared, Option.isSome_some, if_true]

theorem slotFault?_attribute {k j : Nat} {i : Interface} {a : Attribute} {ref : TypeRef}
    (hi : g.interfaces[k]? = some i) (ha : i.attributes[j]? = some a)
    (href : a.type.typeRef? = some ref) :
    g.slotFault? ⟨k, .attribute j⟩ = if ref.name ∈ g.declared then none
      else some (.danglingReference ref.name
        s!"type of attribute '{a.name}' of interface '{i.name}'") := by
  have hc : g.cell? ⟨k, .attribute j⟩ = some ref :=
    cell?_attribute_eq_some.mpr ⟨i, a, hi, ha, href⟩
  have hdeclared : (g.resolve? ref.name (.attribute j)).isSome ↔ ref.name ∈ g.declared :=
    resolve?_attribute_isSome
  unfold slotFault? site
  cases ht : g.resolve? ref.name (.attribute j) <;> rw [ht] at hdeclared
  · simp only [hc, ht, interface_of_getElem? hi, ha, ← hdeclared, Option.isSome_none,
      Bool.false_eq_true, if_false, Option.map_some, Option.getD_some]
  · simp only [hc, ht, ← hdeclared, Option.isSome_some, if_true]

/-- A slot with a reference has a fault just when it dangles. -/
theorem slotFault?_eq_some_iff {slot : Slot} (hcell : (g.cell? slot).isSome) {f : Fault} :
    g.slotFault? slot = some f ↔ g.Dangles slot f := by
  obtain ⟨ref, hc⟩ := Option.isSome_iff_exists.mp hcell
  obtain ⟨k, j | j⟩ := slot
  · obtain ⟨i, a, hi, ha, href⟩ := cell?_attribute_eq_some.mp hc
    rw [slotFault?_attribute hi ha href]
    constructor
    · intro hf
      split at hf
      next => cases hf
      next hundeclared =>
        cases hf
        exact .type hi ha href hundeclared
    · intro hd
      cases hd with
      | type hi' ha' href' hundeclared =>
        obtain rfl := Option.some.inj (hi.symm.trans hi')
        obtain rfl := Option.some.inj (ha.symm.trans ha')
        obtain rfl := Option.some.inj (href.symm.trans href')
        exact if_neg hundeclared
  · obtain ⟨i, hi, href⟩ := cell?_superType_eq_some.mp hc
    rw [slotFault?_superType hi href]
    constructor
    · intro hf
      split at hf
      next => cases hf
      next hundeclared =>
        cases hf
        exact .superType hi href hundeclared
    · intro hd
      cases hd with
      | superType hi' href' hundeclared =>
        obtain rfl := Option.some.inj (hi.symm.trans hi')
        obtain rfl := Option.some.inj (href.symm.trans href')
        exact if_neg hundeclared

/-- Linking slots that all have a reference stops at the first one that dangles. -/
theorem link_eq_firstFault {slots : List Slot} (hcells : ∀ slot ∈ slots, (g.cell? slot).isSome)
    {f : Fault} : (g.link slots).2 = some f ↔ FirstFault g.Dangles slots f := by
  rw [link_fault]
  exact findSome?_eq_some_iff_firstFault fun slot hs f => slotFault?_eq_some_iff (hcells slot hs)

end Grammar

namespace Outline

variable {s : Settings} {m : Model} {o : Outline}

/-- The pending slots are the places of all super types and of all attributes whose types have a
name, each once, and no reference has a target. -/
structure Exact (o : Outline) : Prop where
  once : o.pending.Nodup
  superTypes : ∀ k j, (⟨k, .superType j⟩ : Slot) ∈ o.pending ↔
    ∃ i, o.grammar.interfaces[k]? = some i ∧ j < i.superTypes.length
  types : ∀ k j, (⟨k, .attribute j⟩ : Slot) ∈ o.pending ↔ ∃ i a,
    o.grammar.interfaces[k]? = some i ∧ i.attributes[j]? = some a ∧ a.type.typeRef?.isSome
  openSuperTypes : ∀ i ∈ o.grammar.interfaces, ∀ ref ∈ i.superTypes, ref.isResolved = false
  openTypes : ∀ i ∈ o.grammar.interfaces, ∀ a ∈ i.attributes, ∀ ref,
    a.type.typeRef? = some ref → ref.isResolved = false

theorem Recorded.exact (ho : o.Recorded) : o.Exact where
  once := ho.nodup
  superTypes k j := by
    rw [ho.cells, Option.isSome_iff_exists]
    simp only [Grammar.cell?_superType_eq_some]
    constructor
    · rintro ⟨ref, i, hi, href⟩
      exact ⟨i, hi, (List.getElem?_eq_some_iff.mp href).1⟩
    · rintro ⟨i, hi, hj⟩
      exact ⟨i.superTypes[j], i, hi, List.getElem?_eq_getElem hj⟩
  types k j := by
    rw [ho.cells, Option.isSome_iff_exists]
    simp only [Grammar.cell?_attribute_eq_some, Option.isSome_iff_exists]
    constructor
    · rintro ⟨ref, i, a, hi, ha, href⟩
      exact ⟨i, a, hi, ha, ref, href⟩
    · rintro ⟨i, a, hi, ha, ref, href⟩
      exact ⟨ref, i, a, hi, ha, href⟩
  openSuperTypes i hi ref href := by
    obtain ⟨k, hk⟩ := List.getElem?_of_mem hi
    obtain ⟨j, hj⟩ := List.getElem?_of_mem href
    have hnone := ho.unlinked _ ref (Grammar.cell?_superType_eq_some.mpr ⟨i, hk, hj⟩)
    rw [TypeRef.isResolved, hnone, Option.isSome_none]
  openTypes i hi a ha ref href := by
    obtain ⟨k, hk⟩ := List.getElem?_of_mem hi
    obtain ⟨j, hj⟩ := List.getElem?_of_mem ha
    have hnone := ho.unlinked _ ref (Grammar.cell?_attribute_eq_some.mpr ⟨i, a, hk, hj, href⟩)
    rw [TypeRef.isResolved, hnone, Option.isSome_none]

/-- A finished outline knows its references exactly. Linking it meets no slot without a reference;
it succeeds when all names are declared and else stops at the first slot that dangles. -/
theorem link_of_ofModel (h : ofModel s m = .ok o) : o.Exact ∧
    (∀ name, (o.grammar.link o.pending).2 ≠ some (.missingElement name)) ∧
    ((o.grammar.link o.pending).2 = none ↔ o.grammar.Closed) ∧
    ∀ f, (o.grammar.link o.pending).2 = some f ↔ FirstFault o.grammar.Dangles o.pending f := by
  have ho := recorded_of_ofModel h
  have hfirst {f : Fault} := Grammar.link_eq_firstFault (fun slot => (ho.cells slot).mp) (f := f)
  refine ⟨ho.exact, fun name hname => ?_, ?_, fun f => hfirst⟩
  · obtain ⟨before, slot, after, -, -, hd⟩ := hfirst.mp hname
    cases hd
  · rw [← ho.exists_linked_iff, Grammar.exists_linked_iff_link]

/-- Orders have a customer and a seller, two nested classes. Their total is no reference. -/
def orders : Model where
  elements := [
    ⟨some "order", "Order", .publicAccess, .classifier false
      [⟨none, "total", .publicAccess, .one, .plain, 2, none⟩,
        ⟨none, "customer", .publicAccess, .one, .plain, 3, none⟩,
        ⟨none, "seller", .publicAccess, .one, .plain, 4, none⟩] [⟨none, [1]⟩]⟩,
    ⟨some "record", "Record", .publicAccess, .classifier true [] []⟩,
    ⟨none, "Integer", .publicAccess, .primitiveType⟩,
    ⟨some "customer", "Customer", .publicAccess, .classifier false [] []⟩,
    ⟨some "seller", "Seller", .publicAccess, .classifier false [] []⟩]
  roots := [0, 1]

theorem orders_dangling : ∃ o, ofModel {} orders = .ok o ∧ o.Exact ∧
    o.pending = [⟨0, .superType 0⟩, ⟨0, .attribute 1⟩, ⟨0, .attribute 2⟩] ∧
    FirstFault o.grammar.Dangles o.pending
      (.danglingReference "Customer" "type of attribute 'customer' of interface 'Order'") := by
  have hrun : (ofModel {} orders).map (fun o => (o.pending, (o.grammar.link o.pending).2)) =
      .ok ([⟨0, .superType 0⟩, ⟨0, .attribute 1⟩, ⟨0, .attribute 2⟩], some (.danglingReference
        "Customer" "type of attribute 'customer' of interface 'Order'")) := by
    decide +kernel
  cases ho : ofModel {} orders with
  | error f => simp [ho, Except.map] at hrun
  | ok o =>
    simp only [ho, Except.map, Except.ok.injEq, Prod.mk.injEq] at hrun
    obtain ⟨hexact, -, -, hfirst⟩ := link_of_ofModel ho
    exact ⟨o, rfl, hexact, hrun.1, (hfirst _).mp hrun.2⟩

end Outline
end ClassGrammar
