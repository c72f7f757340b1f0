import ClassGrammar.Proofs.Linking.CellLinking
import Mathlib.Data.List.GetD

/-! Grammars that differ in nothing but their headers and in which attributes are optional. Linking
looks at neither, so it takes the same course in both and stops at the same fault. -/
namespace ClassGrammar

/-- The attribute with its flag cleared. -/
def Attribute.unflagged (a : Attribute) : Attribute := { a with isOptional := false }

def Interface.unflagged (i : Interface) : Interface :=
  { i with attributes := i.attributes.map Attribute.unflagged }

namespace Grammar

/-- Whether two grammars are equal but for their headers and the flags of their attributes. -/
structure SameShape (g g' : Grammar) : Prop where
  interfaces : g'.interfaces.map Interface.unflagged = g.interfaces.map Interface.unflagged
  unions : g'.unions = g.unions
  primitives : g'.primitives = g.primitives

theorem refAt?_unflagged (i : Interface) (p : Place) : refAt? i.unflagged p = refAt? i p := by
  match p with
  | .superType _ => rfl
  | .attribute k =>
    simp only [refAt?, Interface.unflagged, List.getElem?_map]
    cases i.attributes[k]? <;> rfl

theorem unflagged_setTarget (t : Target) (p : Place) :
    Function.Semiconj Interface.unflagged (setTarget t · p) (setTarget t · p) := by
  intro i
  match p with
  | .superType _ => rfl
  | .attribute k =>
    simp only [Interface.unflagged, setTarget, Interface.mk.injEq, true_and]
    apply map_modify
    intro a
    cases ha : a.type.typeRef? <;> simp [Attribute.unflagged, ha]

namespace SameShape

variable {g g' : Grammar}

theorem length (h : g.SameShape g') : g'.interfaces.length = g.interfaces.length := by
  have hlength := congrArg List.length h.interfaces
  rwa [List.length_map, List.length_map] at hlength

theorem names (h : g.SameShape g') :
    g'.interfaces.map (·.name) = g.interfaces.map (·.name) := by
  have hnames := congrArg (List.map Interface.name) h.interfaces
  rwa [List.map_map, List.map_map] at hnames

theorem hasType (h : g.SameShape g') (name : String) : g'.hasType name = g.hasType name := by
  unfold Grammar.hasType findInterface? findUnion? interfaceTable unionTable
  rw [h.names, h.unions]

theorem interface (h : g.SameShape g') (k : Nat) :
    (g'.interface k).unflagged = (g.interface k).unflagged := by
  have hdefault : (default : Interface).unflagged = default := rfl
  have hk := congrArg (·.getD k default) h.interfaces
  rw [← hdefault] at hk
  simp only [List.getD_map] at hk
  exact hk

theorem attributes_length (h : g.SameShape g') (k : Nat) :
    (g'.interface k).attributes.length = (g.interface k).attributes.length := by
  have hlength := congrArg (·.attributes.length) (h.interface k)
  simpa [Interface.unflagged] using hlength

theorem cell? (h : g.SameShape g') (slot : Slot) : g'.cell? slot = g.cell? slot := by
  unfold Grammar.cell?
  rw [← refAt?_unflagged, h.interface, refAt?_unflagged]

theorem site (h : g.SameShape g') (k : Nat) (p : Place) :
    site (g'.interface k) p = site (g.interface k) p := by
  have hinterface := h.interface k
  apply site_congr
  · have hname := congrArg Interface.name hinterface
    exact hname
  · have hnames := congrArg (fun i => i.attributes.map (·.name)) hinterface
    simpa [Interface.unflagged, Attribute.unflagged, Function.comp_def] using hnames

theorem fill (h : g.SameShape g') (slot : Slot) (t : Target) :
    (g.fill slot t).SameShape (g'.fill slot t) := by
  have hset := unflagged_setTarget t slot.place
  refine ⟨?_, h.unions, h.primitives⟩
  rw [Grammar.fill, Grammar.fill, map_modify hset, map_modify hset, h.interfaces]

theorem linkSlot (h : g.SameShape g') (slot : Slot) :
    EndAlike Eq SameShape (g.linkSlot slot) (g'.linkSlot slot) := by
  have hresolve := resolve?_congr h.names h.unions
  cases hs : g.linkSlot slot with
  | ok g₁ =>
    obtain ⟨ref, t, hcell, ht, rfl⟩ := linkSlot_eq_ok.mp hs
    have hs' : g'.linkSlot slot = .ok (g'.fill slot t) :=
      linkSlot_eq_ok.mpr ⟨ref, t, by rw [h.cell?, hcell], by rw [hresolve, ht], rfl⟩
    rw [hs']
    exact .ok (h.fill slot t)
  | error f =>
    have hfault : g'.slotFault? slot = g.slotFault? slot := by
      unfold slotFault?
      simp only [h.cell?, hresolve, h.site]
    have hs' : g'.linkSlot slot = .error f := by
      rw [linkSlot_eq_error, hfault, ← linkSlot_eq_error]
      exact hs
    rw [hs']
    exact .error rfl

theorem linked (h : g.SameShape g') (slots : List Slot) :
    EndAlike Eq SameShape (g.linked slots) (g'.linked slots) := by
  induction slots generalizing g g' with
  | nil => exact .ok h
  | cons slot rest ih =>
    rw [linked_cons, linked_cons]
    apply (h.linkSlot slot).bind
    intro g₁ g₁' h₁
    exact ih h₁

theorem dedupePrimitives (h : g.SameShape g') :
    g.dedupePrimitives.SameShape g'.dedupePrimitives :=
  ⟨h.interfaces, h.unions, congrArg Primitive.dedupe h.primitives⟩

end SameShape
end Grammar
end ClassGrammar
