import Mathlib.Data.List.Forall2

/-! Outcomes of computations that may stop with a fault, and the first fault in a list. -/
namespace ClassGrammar

/-- A computation in two parts succeeds when both parts do. -/
theorem outcome_bind {φ α β : Type} {first : Except φ α} {next : α → Except φ β} {b : β} :
    first >>= next = .ok b ↔ ∃ a, first = .ok a ∧ next a = .ok b := by
  constructor
  · intro h
    cases first with
    | error f => cases h
    | ok a => exact ⟨a, rfl, h⟩
  · rintro ⟨a, rfl, h⟩
    exact h

/-- A computation whose value is changed afterwards succeeds when it does. -/
theorem outcome_map {φ α β : Type} {x : Except φ α} {f : α → β} {b : β} :
    x.map f = .ok b ↔ ∃ a, x = .ok a ∧ f a = b := by
  cases x <;> simp [Except.map]

/-- A computation in two parts still gives what it gave when each of its parts does. -/
theorem outcome_mapError {φ φ' α : Type} {x : Except φ α} {f : φ → φ'} {a : α} :
    x.mapError f = .ok a ↔ x = .ok a := by
  cases x <;> simp [Except.mapError]

theorem outcome_bind_mono {φ α β : Type} {first first' : Except φ α} {next next' : α → Except φ β}
    {b : β} (hfirst : ∀ a, first = .ok a → first' = .ok a)
    (hnext : ∀ a b, next a = .ok b → next' a = .ok b) (h : first >>= next = .ok b) :
    first' >>= next' = .ok b := by
  obtain ⟨a, ha, hb⟩ := outcome_bind.mp h
  exact outcome_bind.mpr ⟨a, hfirst a ha, hnext a b hb⟩

theorem exists_outcome_bind {φ α β : Type} {first : Except φ α} {next : α → Except φ β} :
    (∃ b, first >>= next = .ok b) ↔ ∃ a, first = .ok a ∧ ∃ b, next a = .ok b := by
  simp only [outcome_bind]
  constructor
  · rintro ⟨b, a, ha, hb⟩
    exact ⟨a, ha, b, hb⟩
  · rintro ⟨a, ha, b, hb⟩
    exact ⟨b, a, ha, hb⟩

/-- A computation that goes on without a fault succeeds when its first part does. -/
theorem exists_outcome_bind_pure {φ α β : Type} {first : Except φ α} {f : α → β} :
    (∃ b, (do let a ← first; return f a) = .ok b) ↔ ∃ a, first = .ok a := by
  rw [exists_outcome_bind]
  simp [pure, Except.pure]

theorem outcome_bind_error {φ α β : Type} {first : Except φ α} {next : α → Except φ β} {f : φ} :
    first >>= next = .error f ↔ first = .error f ∨ ∃ a, first = .ok a ∧ next a = .error f := by
  cases first with
  | error f' => simp [bind, Except.bind]
  | ok a => simp [bind, Except.bind]

/-- A computation that goes on without a fault fails as its first part does. -/
theorem outcome_bind_pure_error {φ α β : Type} {first : Except φ α} {g : α → β} {f : φ} :
    (do let a ← first; return g a) = .error f ↔ first = .error f := by
  rw [outcome_bind_error]
  simp [pure, Except.pure]

/-- A value that is required to be there. -/
theorem elim_eq_ok {φ α : Type} {o : Option α} {f : φ} {a : α} :
    o.elim (.error f) Except.ok = .ok a ↔ o = some a := by
  cases o <;> simp

theorem elim_eq_error {φ α : Type} {o : Option α} {f f' : φ} :
    o.elim (.error f) Except.ok = .error f' ↔ o = none ∧ f = f' := by
  cases o <;> simp

theorem exists_ok_iff {φ α : Type} {x : Except φ α} : (∃ a, x = .ok a) ↔ ∀ f, x ≠ .error f := by
  cases x <;> simp

/-- Whether two computations end alike: both with values that are related, or both with faults that
are related. -/
inductive EndAlike {φ α β : Type} (F : φ → φ → Prop) (R : α → β → Prop) :
    Except φ α → Except φ β → Prop where
  | ok {a : α} {b : β} (h : R a b) : EndAlike F R (.ok a) (.ok b)
  | error {f g : φ} (h : F f g) : EndAlike F R (.error f) (.error g)

namespace EndAlike

variable {φ α α' β β' : Type} {F : φ → φ → Prop} {R : α → α' → Prop} {S : β → β' → Prop}

theorem bind {first : Except φ α} {first' : Except φ α'} {next : α → Except φ β}
    {next' : α' → Except φ β'} (h : EndAlike F R first first')
    (hnext : ∀ a a', R a a' → EndAlike F S (next a) (next' a')) :
    EndAlike F S (first >>= next) (first' >>= next') := by
  cases h with
  | ok hr => exact hnext _ _ hr
  | error hf => exact .error hf

theorem imp {T : α → α' → Prop} {x : Except φ α} {y : Except φ α'} (h : EndAlike F R x y)
    (himp : ∀ a a', R a a' → T a a') : EndAlike F T x y := by
  cases h with
  | ok hr => exact .ok (himp _ _ hr)
  | error hf => exact .error hf

theorem imp_fault {G : φ → φ → Prop} {x : Except φ α} {y : Except φ α'} (h : EndAlike F R x y)
    (himp : ∀ f f', F f f' → G f f') : EndAlike G R x y := by
  cases h with
  | ok hr => exact .ok hr
  | error hf => exact .error (himp _ _ hf)

theorem and_ok {x : Except φ α} {y : Except φ α'} (h : EndAlike F R x y) :
    EndAlike F (fun a a' => x = .ok a ∧ R a a') x y := by
  cases h with
  | ok hr => exact .ok ⟨rfl, hr⟩
  | error hf => exact .error hf

theorem map {f : α → β} {f' : α' → β'} {x : Except φ α} {y : Except φ α'}
    (h : EndAlike F R x y) (hf : ∀ a a', R a a' → S (f a) (f' a')) :
    EndAlike F S (x.map f) (y.map f') := by
  cases h with
  | ok hr => exact .ok (hf _ _ hr)
  | error h => exact .error h

theorem exists_ok {x : Except φ α'} {a : α} (h : EndAlike F R (.ok a) x) :
    ∃ a', x = .ok a' ∧ R a a' := by
  cases h with
  | ok hr => exact ⟨_, rfl, hr⟩

theorem exists_error {x : Except φ α'} {f : φ} (h : EndAlike F R (.error f) x) :
    ∃ f', x = .error f' ∧ F f f' := by
  cases h with
  | error hf => exact ⟨_, rfl, hf⟩

theorem of_eq [Std.Refl F] {x y : Except φ α} (h : x = y) : EndAlike F Eq x y := by
  subst h
  cases x with
  | ok _ => exact .ok rfl
  | error f => exact .error (Std.Refl.refl f)

theorem eq {x y : Except φ α} (h : EndAlike F Eq x y) (hF : ∀ f g, F f g → f = g) : x = y := by
  cases h with
  | ok ha => rw [ha]
  | error hf => rw [hF _ _ hf]

theorem mapM {f : α → Except φ β} {f' : α' → Except φ β'} {l : List α} {l' : List α'}
    (h : List.Forall₂ (fun a a' => EndAlike F S (f a) (f' a')) l l') :
    EndAlike F (List.Forall₂ S) (l.mapM f) (l'.mapM f') := by
  induction h with
  | nil => exact .ok .nil
  | cons hhead _ ih =>
    rw [List.mapM_cons, List.mapM_cons]
    exact hhead.bind fun _ _ hb => ih.bind fun _ _ hbs => .ok (.cons hb hbs)

end EndAlike

/-- Whether a fault is that of the first member of a list that has one. -/
def FirstFault {α φ : Type} (faults : α → φ → Prop) (l : List α) (f : φ) : Prop :=
  ∃ before a after, l = before ++ a :: after ∧ (∀ b ∈ before, ∀ f', ¬ faults b f') ∧ faults a f

/-- A search for a fault finds the first one. -/
theorem findSome?_eq_some_iff_firstFault {α φ : Type} {faults : α → φ → Prop}
    {fault? : α → Option φ} {l : List α}
    (h : ∀ a ∈ l, ∀ f, fault? a = some f ↔ faults a f) {f : φ} :
    l.findSome? fault? = some f ↔ FirstFault faults l f := by
  rw [List.findSome?_eq_some_iff]
  constructor
  · rintro ⟨before, a, after, rfl, ha, hbefore⟩
    refine ⟨before, a, after, rfl, fun b hb f' hf => ?_, (h a (by simp) f).mp ha⟩
    have hb' := (h b (by simp [hb]) f').mpr hf
    rw [hbefore b hb] at hb'
    cases hb'
  · rintro ⟨before, a, after, rfl, hbefore, ha⟩
    refine ⟨before, a, after, rfl, (h a (by simp) f).mpr ha, fun b hb => ?_⟩
    rw [Option.eq_none_iff_forall_ne_some]
    exact fun f' hf => hbefore b hb f' ((h b (by simp [hb]) f').mp hf)

instance decidableEqOutcome {φ α : Type} [DecidableEq φ] [DecidableEq α] :
    DecidableEq (Except φ α)
  | .ok a, .ok b => decidable_of_iff (a = b) (by simp)
  | .error f, .error g => decidable_of_iff (f = g) (by simp)
  | .ok _, .error _ => isFalse (by simp)
  | .error _, .ok _ => isFalse (by simp)

end ClassGrammar
