import ClassGrammar.Proofs.Models.FilledMembers

/-! Reading with a larger index. What can be read with an index is read in the same way with any
index that resolves all that the first one resolves, to the same nodes. -/
namespace ClassGrammar

/-- Whether an index resolves all that another one resolves, to the same nodes. -/
def IdIndex.Within (ix ix' : IdIndex) : Prop :=
  ∀ id n, ix.get? id = some n → ix'.get? id = some n

theorem IdIndex.Within.resolve {ix ix' : IdIndex} (hix : ix.Within ix') {id context : String}
    {n : Node} (h : ix.resolve id context = .ok n) : ix'.resolve id context = .ok n :=
  resolve_eq_ok.mpr (hix id n (resolve_eq_ok.mp h))

namespace Draft

theorem drain_nil {ix : IdIndex} {d : Draft} (hq : d.queue = []) : drain ix d = .ok d := by
  rw [drain]
  split
  next => rfl
  next hcons => rw [hq] at hcons; cases hcons

theorem drain_cons {ix : IdIndex} {d : Draft} {h : Handle} {n : Node}
    {rest : List (Handle × Node)} (hq : d.queue = (h, n) :: rest) :
    drain ix d = (do
      let d ← fillMembers ix { d with queue := rest } h n
      drain ix d) := by
  rw [drain]
  split
  next hnil => rw [hq] at hnil; cases hnil
  next h' n' rest' hcons =>
    rw [hq] at hcons
    cases hcons
    cases hf : fillMembers ix { d with queue := rest } h n <;> rfl

/-- Lists of parts are read as before when the parts are. -/
theorem ReadsEach.mono {β : Type} {read read' : Draft → Node → Except Fault (Draft × β)}
    {readAll readAll' : Draft → List Node → Except Fault (Draft × List β)}
    (hr : ReadsEach read readAll) (hr' : ReadsEach read' readAll')
    (part : ∀ {d c r}, read d c = .ok r → read' d c = .ok r) {d : Draft} {cs : List Node}
    {r : Draft × List β} (h : readAll d cs = .ok r) : readAll' d cs = .ok r := by
  induction cs generalizing d r with
  | nil =>
    rw [hr.nil] at h
    rw [hr'.nil]
    exact h
  | cons c rest ih =>
    rw [hr.cons] at h
    rw [hr'.cons]
    exact outcome_bind_mono (fun _ hb => part hb)
      (fun _ _ hd => outcome_bind_mono (fun _ hbs => ih hbs) (fun _ _ hd => hd) hd) h

variable {ix ix' : IdIndex} (hix : ix.Within ix') {d : Draft}
include hix

theorem propertyType_mono {c : Node} {r : Draft × Handle} (h : propertyType ix d c = .ok r) :
    propertyType ix' d c = .ok r := by
  unfold propertyType at h ⊢
  cases hid : c.attr? "type" with
  | some id =>
    simp only [hid] at h ⊢
    exact outcome_bind_mono (fun _ hn => hix.resolve hn) (fun _ _ hd => hd) h
  | none =>
    simp only [hid] at h ⊢
    exact h

theorem property_mono {c : Node} {r : Draft × Property} (h : property ix d c = .ok r) :
    property ix' d c = .ok r :=
  outcome_bind_mono (fun _ ht => propertyType_mono hix ht) (fun _ _ hd => hd) h

theorem properties_mono {cs : List Node} {r : Draft × List Property}
    (h : properties ix d cs = .ok r) : properties ix' d cs = .ok r :=
  (readsEach_properties ix).mono (readsEach_properties ix') (property_mono hix) h

theorem generalization_mono {specific c : Node} {r : Draft × Generalization}
    (h : generalization ix specific d c = .ok r) : generalization ix' specific d c = .ok r := by
  unfold generalization at h ⊢
  cases hid : c.attr? "general" with
  | some id =>
    simp only [hid] at h ⊢
    exact outcome_bind_mono (fun _ hn => hix.resolve hn) (fun _ _ hd => hd) h
  | none =>
    simp only [hid] at h ⊢
    exact h

theorem generalizations_mono {specific : Node} {cs : List Node}
    {r : Draft × List Generalization} (h : generalizations ix specific d cs = .ok r) :
    generalizations ix' specific d cs = .ok r :=
  (readsEach_generalizations ix specific).mono (readsEach_generalizations ix' specific)
    (generalization_mono hix) h

theorem fillMembers_mono {h : Handle} {n : Node} {d' : Draft}
    (hf : fillMembers ix d h n = .ok d') : fillMembers ix' d h n = .ok d' :=
  outcome_bind_mono (fun _ ha => properties_mono hix ha)
    (fun _ _ hd => outcome_bind_mono (fun _ hg => generalizations_mono hix hg)
      (fun _ _ hd => hd) hd) hf

theorem associationFor_mono {n : Node} {r : Draft × Handle}
    (h : associationFor ix d n = .ok r) : associationFor ix' d n = .ok r := by
  unfold associationFor at h ⊢
  cases hknown : n.id?.bind d.model.lookup with
  | some a =>
    rw [hknown] at h
    exact h
  | none =>
    rw [hknown] at h
    match hends : n.children "ownedEnd" with
    | [a, b] =>
      simp only [hends] at h ⊢
      exact outcome_bind_mono (fun _ ha => property_mono hix ha)
        (fun _ _ hd => outcome_bind_mono (fun _ hb => property_mono hix hb)
          (fun _ _ hd => hd) hd) h
    | [] | [_] | _ :: _ :: _ :: _ => simp [hends] at h

theorem rootFor_mono {position : Nat} {n : Node} {r : Draft × Handle}
    (h : rootFor ix d position n = .ok r) : rootFor ix' d position n = .ok r := by
  unfold rootFor at h ⊢
  cases hk : TypeKind.ofNode? n with
  | some kind =>
    rw [hk] at h
    exact h
  | none =>
    by_cases ha : n.kind? = some "uml:Association"
    · simp only [hk, ha, if_true] at h ⊢
      exact associationFor_mono hix h
    · simp [hk, ha] at h

theorem drain_mono {d' : Draft} (h : drain ix d = .ok d') : drain ix' d = .ok d' := by
  fun_induction drain ix d with
  | case1 d hq =>
    rw [drain_nil hq]
    exact h
  | case2 d a n rest hq f hf => cases h
  | case3 d a n rest hq d₁ hf ih =>
    rw [drain_cons hq]
    exact outcome_bind.mpr ⟨d₁, fillMembers_mono hix hf, ih h⟩

/-- A run that succeeds is the same run with a larger index. -/
theorem addRoots_mono {position : Nat} {ns : List Node} {d' : Draft}
    (h : addRoots ix d position ns = .ok d') : addRoots ix' d position ns = .ok d' := by
  induction ns generalizing d position with
  | nil => exact h
  | cons n rest ih =>
    obtain ⟨⟨d₁, a⟩, h₁, h⟩ := outcome_bind.mp h
    obtain ⟨d₂, h₂, h⟩ := outcome_bind.mp h
    exact outcome_bind.mpr ⟨(d₁, a), rootFor_mono hix h₁,
      outcome_bind.mpr ⟨d₂, drain_mono hix h₂, ih h⟩⟩

end Draft
end ClassGrammar
