import ClassGrammar.Proofs.Outlines.AdmittedModels

/-! Lenient settings. An association with a wrong number of navigable tokens leaves no trace in the
outline, so a lenient run is a strict run on the model without such associations. -/
namespace ClassGrammar

namespace Model

/-- Whether an element is an association whose number of navigable tokens is neither one nor two. -/
def miscounted (m : Model) (h : Handle) : Bool :=
  match (m.element h).form with
  | .association _ _ tokens => tokens.length != 1 && tokens.length != 2
  | _ => false

/-- The model in which miscounted associations are no longer top-level elements. -/
def withoutMiscounted (m : Model) : Model :=
  { m with roots := m.roots.filter fun h => !m.miscounted h }

theorem miscounted_eq_false {s : Settings} {m : Model} {h : Handle}
    (hs : s.associationArity = .strict) (ha : m.AcceptsArity s h) : m.miscounted h = false := by
  unfold miscounted
  cases hf : (m.element h).form with
  | association first second tokens =>
    rcases ha first second tokens hf with hl | hl | hl
    · rw [hs] at hl
      cases hl
    · simp [hl]
    · simp [hl]
  | _ => rfl

end Model

theorem ArityPolicy.select_lenient {e : Element} {first second : Property} {tokens : List String}
    (h₁ : tokens.length ≠ 1) (h₂ : tokens.length ≠ 2) :
    ArityPolicy.lenient.select e first second tokens = .ok [] := by
  match tokens with
  | [] => rfl
  | [_] => simp at h₁
  | [_, _] => simp at h₂
  | _ :: _ :: _ :: _ => rfl

/-- The policy is asked only when the number of tokens is wrong. -/
theorem ArityPolicy.select_congr {e : Element} {first second : Property} {tokens : List String}
    (h : tokens.length = 1 ∨ tokens.length = 2) (policy policy' : ArityPolicy) :
    policy.select e first second tokens = policy'.select e first second tokens := by
  match tokens with
  | [] => simp at h
  | [_] => rfl
  | [_, _] => rfl
  | _ :: _ :: _ :: _ => simp at h

namespace Outline

variable {m : Model} {o : Outline} {h : Handle}

theorem addElement_lenient (s : Settings) (hbad : m.miscounted h = true) :
    addElement { s with associationArity := .lenient } m o h = .ok o := by
  unfold Model.miscounted at hbad
  unfold addElement
  split at hbad
  next first second tokens hf =>
    simp only [Bool.and_eq_true, bne_iff_ne] at hbad
    simp only [hf, ArityPolicy.select_lenient hbad.1 hbad.2]
    show Except.ok { o with ends := o.ends ++ [] } = Except.ok o
    rw [List.append_nil]
  next => cases hbad

theorem addElement_withPolicy (s : Settings) (hgood : m.miscounted h = false)
    (policy policy' : ArityPolicy) :
    addElement { s with associationArity := policy } m o h =
      addElement { s with associationArity := policy' } m o h := by
  unfold Model.miscounted at hgood
  unfold addElement
  cases hf : (m.element h).form with
  | association first second tokens =>
    have hcount : tokens.length = 1 ∨ tokens.length = 2 := by
      simp only [hf, Bool.and_eq_false_iff, bne_eq_false_iff_eq] at hgood
      exact hgood
    simp only [hf, ArityPolicy.select_congr hcount policy policy']
  | _ => simp only [hf]

/-- A lenient pass over some elements is a strict pass over those that are not miscounted. -/
theorem addElements_lenient (s : Settings) (m : Model) (o : Outline) (hs : List Handle) :
    addElements { s with associationArity := .lenient } m o hs =
      addElements { s with associationArity := .strict } m o
        (hs.filter fun h => !m.miscounted h) := by
  induction hs generalizing o with
  | nil => rfl
  | cons h rest ih =>
    cases hb : m.miscounted h with
    | true =>
      rw [List.filter_cons_of_neg (by simp [hb]), addElements, addElement_lenient s hb]
      exact ih o
    | false =>
      rw [List.filter_cons_of_pos (by simp [hb]), addElements, addElements,
        addElement_withPolicy s hb .lenient .strict]
      simp only [ih]

/-- Elements are added without regard to which of them are top-level elements. -/
theorem addElements_roots (s : Settings) (m : Model) (roots : List Handle) (o : Outline)
    (hs : List Handle) : addElements s { m with roots } o hs = addElements s m o hs := by
  induction hs generalizing o with
  | nil => rfl
  | cons h rest ih =>
    rw [addElements, addElements]
    simp only [ih]
    rfl

/-- Ends are inserted in the same way whatever the policy and the top-level elements are. -/
theorem insertEnds_withPolicy (s : Settings) (m : Model) (roots : List Handle)
    (policy policy' : ArityPolicy) (o : Outline) (es : List NavigableEnd) :
    insertEnds { s with associationArity := policy } { m with roots } o es =
      insertEnds { s with associationArity := policy' } m o es := by
  induction es generalizing o with
  | nil => rfl
  | cons e rest ih =>
    rw [insertEnds, insertEnds]
    simp only [ih]
    rfl

theorem ofModel_lenient_eq (s : Settings) (m : Model) :
    ofModel { s with associationArity := .lenient } m =
      ofModel { s with associationArity := .strict } m.withoutMiscounted := by
  have hadd : addElements { s with associationArity := .lenient } m
      (start { s with associationArity := .lenient }) m.roots =
        addElements { s with associationArity := .strict } m.withoutMiscounted
          (start { s with associationArity := .strict }) m.withoutMiscounted.roots :=
    (addElements_lenient s m _ m.roots).trans (addElements_roots _ m _ _ _).symm
  have hinsert (o : Outline) : insertEnds { s with associationArity := .lenient } m o o.ends =
      insertEnds { s with associationArity := .strict } m.withoutMiscounted o o.ends :=
    (insertEnds_withPolicy s m _ .strict .lenient o o.ends).symm
  unfold ofModel
  rw [hadd]
  simp only [hinsert]

/-- A strict run that succeeds has met no miscounted association. -/
theorem withoutMiscounted_of_ofModel {s : Settings}
    (h : ofModel { s with associationArity := .strict } m = .ok o) : m.withoutMiscounted = m := by
  obtain ⟨o₁, h₁, -⟩ := outcome_bind.mp h
  have hroots : (m.roots.filter fun h => !m.miscounted h) = m.roots := by
    rw [List.filter_eq_self]
    intro a ha
    rw [Model.miscounted_eq_false rfl (arity_of_addElements h₁ a ha)]
    rfl
  rw [Model.withoutMiscounted, hroots]

/-- Lenient settings give the outcome, outline or fault, that strict ones give without the
miscounted associations; they give the same outline whenever strict ones give any. -/
theorem ofModel_lenient (s : Settings) (m : Model) :
    ofModel { s with associationArity := .lenient } m =
        ofModel { s with associationArity := .strict } m.withoutMiscounted ∧
      ∀ o, ofModel { s with associationArity := .strict } m = .ok o →
        ofModel { s with associationArity := .lenient } m = .ok o := by
  refine ⟨ofModel_lenient_eq s m, ?_⟩
  intro o ho
  rw [ofModel_lenient_eq, withoutMiscounted_of_ofModel ho, ho]

/-- The lamps with an association that nobody navigates and one with three tokens. -/
def wiredLamps : Model where
  elements := lamps.elements ++ [
    ⟨none, "idle", .publicAccess, .association
      ⟨some "on", "on", .publicAccess, .one, .plain, 2, some 5⟩
      ⟨some "off", "off", .publicAccess, .one, .plain, 3, some 5⟩ []⟩,
    ⟨none, "wires", .publicAccess, .association
      ⟨some "from", "from", .publicAccess, .one, .plain, 3, some 6⟩
      ⟨some "to", "to", .publicAccess, .one, .plain, 2, some 6⟩ ["from", "to", "from"]⟩]
  roots := [5, 0, 1, 6, 2, 3]

theorem wiredLamps_lenient :
    ofModel {} wiredLamps = .error (.associationArity "'idle'" 0) ∧
      ofModel { associationArity := .lenient } wiredLamps =
        ofModel {} { wiredLamps with roots := [0, 1, 2, 3] } ∧
      ∃ o, ofModel {} lamps = .ok o ∧ ofModel { associationArity := .lenient } lamps = .ok o := by
  have hroots : wiredLamps.withoutMiscounted = { wiredLamps with roots := [0, 1, 2, 3] } := by
    decide +kernel
  have hwired := (ofModel_lenient {} wiredLamps).1
  rw [hroots] at hwired
  have hok : (ofModel {} lamps).toOption.isSome = true := by decide +kernel
  obtain ⟨o, ho⟩ : ∃ o, ofModel {} lamps = .ok o := by
    cases h : ofModel {} lamps with
    | error f => simp [h, Except.toOption] at hok
    | ok o => exact ⟨o, rfl⟩
  exact ⟨by decide +kernel, hwired, o, ho, (ofModel_lenient {} lamps).2 o ho⟩

end Outline
end ClassGrammar
