import ClassGrammar.Proofs.General.FirstOccurrences
import ClassGrammar.Proofs.Linking.RunsLinkAll

/-! Which primitive types a grammar lists: those of its attributes, each of them once. -/
namespace ClassGrammar

/-- The primitive types of the attributes of some interfaces. -/
def primitivesOf (is : List Interface) : List Primitive :=
  (is.flatMap (·.attributes)).filterMap (·.type.primitive?)

theorem flatMap_attributes_modify {is : List Interface} {k : Nat} (hk : k < is.length)
    (a : Attribute) :
    ((is.modify k fun i => { i with attributes := i.attributes ++ [a] }).flatMap
      (·.attributes)).Perm (is.flatMap (·.attributes) ++ [a]) := by
  induction is generalizing k with
  | nil => simp at hk
  | cons i rest ih =>
    cases k with
    | zero =>
      simp only [List.modify_zero_cons, List.flatMap_cons, List.append_assoc]
      exact List.Perm.append_left _ List.perm_append_comm
    | succ k =>
      have hrest := ih (Nat.lt_of_succ_lt_succ hk)
      simp only [List.modify_succ_cons, List.flatMap_cons, List.append_assoc]
      exact hrest.append_left _

namespace Outline

/-- Whether the primitive types of the attributes are noted, in whatever order. -/
def Noted (o : Outline) : Prop := o.grammar.primitives.Perm (primitivesOf o.grammar.interfaces)

namespace Noted

variable {o : Outline}

theorem addInterface (ho : o.Noted) (h : Handle) {i : Interface} (ha : i.attributes = []) :
    (o.addInterface h i).Noted := by
  unfold Noted at ho ⊢
  simpa [Outline.addInterface, primitivesOf, ha] using ho

theorem addAttribute (ho : o.Noted) {owner : Nat} (hk : owner < o.grammar.interfaces.length)
    (a : Attribute) : (o.addAttribute owner a).Noted := by
  have hattributes := (flatMap_attributes_modify hk a).filterMap (·.type.primitive?)
  have hlast : [a].filterMap (·.type.primitive?) = a.type.primitive?.toList := by
    cases ha : a.type.primitive? <;> simp [ha]
  rw [List.filterMap_append, hlast] at hattributes
  exact (List.Perm.append_right _ ho).trans hattributes.symm

theorem addAttributes (ho : o.Noted) {owner : Nat} (hk : owner < o.grammar.interfaces.length)
    (as : List Attribute) : (o.addAttributes owner as).Noted := by
  induction as generalizing o with
  | nil => exact ho
  | cons a rest ih =>
    refine ih (ho.addAttribute hk a) ?_
    rwa [addAttribute_length]

theorem added {s : Settings} {m : Model} {h : Handle} {o' : Outline} (ho : o.Noted)
    (ha : Added s m h o o') : o'.Noted := by
  cases ha with
  | interface _ _ _ _ =>
    have hi := ho.addInterface h (i := ⟨(m.element h).name, m.superTypes h, []⟩) rfl
    exact hi.addAttributes (by simp [Outline.addInterface]) _
  | union _ _ _ _ => exact ho
  | ends _ _ => exact ho

end Noted

/-- A finished outline notes the primitive types of all attributes and no others. -/
theorem noted_of_ofModel {s : Settings} {m : Model} {o : Outline} (h : ofModel s m = .ok o) :
    o.Noted := by
  obtain ⟨o₁, h₁, h₂⟩ := outcome_bind.mp h
  have hrun : o₁.Recorded ∧ o₁.Noted :=
    addElements_run (I := fun _ o => o.Recorded ∧ o.Noted)
      (fun _ _ _ _ ho ha => ⟨ho.1.added ha, ho.2.added ha⟩) ⟨Recorded.start s, .nil⟩ h₁
  -- The owner of an end has an interface, so the attribute is added somewhere.
  exact (insertEnds_run (I := fun _ o => o.Recorded ∧ o.Noted)
    (fun _ _ o owner ho hl =>
      have hk := ho.1.owners _ _ hl
      ⟨ho.1.addAttribute hk fun ref href => Attribute.ofProperty_unlinked href,
        ho.2.addAttribute hk _⟩) hrun h₂).2

end Outline
end ClassGrammar
