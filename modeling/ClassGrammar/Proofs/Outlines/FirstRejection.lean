import ClassGrammar.Proofs.Outlines.AdmittedModels

/-! Why a class model has no outline. Elements are added in their order, and the first one that
repeats a declared name or has a refused number of navigable tokens stops the pass. Association ends
are inserted only when no element does; then the first end without a receiver stops it. -/
namespace ClassGrammar

namespace Model

/-- The name that is declared at a position of the top level. -/
def declaredAt? (m : Model) (k : Nat) : Option String := m.roots[k]?.bind m.declaredName?

/-- Whether two positions of the top level declare the same name. -/
def RepeatsName (m : Model) : Prop :=
  ∃ i k name, i < k ∧ m.declaredAt? i = some name ∧ m.declaredAt? k = some name

/-- Whether the settings refuse the number of navigable tokens of some association. -/
def RefusesArity (s : Settings) (m : Model) : Prop :=
  s.associationArity = .strict ∧ ∃ h ∈ m.roots, ∃ first second tokens,
    (m.element h).form = .association first second tokens ∧ tokens.length ≠ 1 ∧ tokens.length ≠ 2

/-- Whether the receiver of some selected end declares no interface at the top level. -/
def LosesEnd (m : Model) : Prop :=
  ∃ e ∈ m.roots.flatMap m.ownEnds, e.receiver ∉ m.declaring m.roots

/-- The fault with which the element at a position of the top level stops the pass. -/
inductive StopsAt (s : Settings) (m : Model) (k : Nat) : Fault → Prop where
  | repeated {name : String} {i : Nat} (declared : m.declaredAt? k = some name) (before : i < k)
      (earlier : m.declaredAt? i = some name) : StopsAt s m k (.duplicateInterface name)
  | arity {h : Handle} {first second : Property} {tokens : List String}
      (element : m.roots[k]? = some h)
      (form : (m.element h).form = .association first second tokens)
      (strict : s.associationArity = .strict) (one : tokens.length ≠ 1) (two : tokens.length ≠ 2) :
      StopsAt s m k (.associationArity (m.element h).describe tokens.length)

/-- The fault of the first position of the top level that stops the pass. -/
def FirstStop (s : Settings) (m : Model) (f : Fault) : Prop :=
  ∃ k, m.StopsAt s k f ∧ ∀ i < k, ∀ f', ¬ m.StopsAt s i f'

/-- The fault of an end whose receiver declares no interface at the top level. -/
def LostEnd (m : Model) (e : NavigableEnd) (f : Fault) : Prop :=
  e.receiver ∉ m.declaring m.roots ∧ f = .danglingReference (m.element e.receiver).name
    s!"owner of end '{e.property.name}' of association {e.association.describe}"

variable {s : Settings} {m : Model}

theorem lt_of_declaredAt? {k : Nat} {name : String} (h : m.declaredAt? k = some name) :
    k < m.roots.length := by
  obtain ⟨a, ha, -⟩ := Option.bind_eq_some_iff.mp h
  exact (List.getElem?_eq_some_iff.mp ha).1

theorem StopsAt.lt {k : Nat} {f : Fault} (h : m.StopsAt s k f) : k < m.roots.length := by
  cases h with
  | repeated declared _ _ => exact lt_of_declaredAt? declared
  | arity element _ _ _ _ => exact (List.getElem?_eq_some_iff.mp element).1

theorem exists_stopsAt_iff :
    (∃ k f, m.StopsAt s k f) ↔ m.RepeatsName ∨ m.RefusesArity s := by
  constructor
  · rintro ⟨k, f, h⟩
    cases h with
    | repeated declared before earlier => exact .inl ⟨_, k, _, before, earlier, declared⟩
    | arity element form strict one two =>
      exact .inr ⟨strict, _, List.mem_of_getElem? element, _, _, _, form, one, two⟩
  · rintro (⟨i, k, name, before, earlier, declared⟩ |
      ⟨strict, h, hmem, first, second, tokens, form, one, two⟩)
    · exact ⟨k, _, .repeated declared before earlier⟩
    · obtain ⟨k, element⟩ := List.getElem?_of_mem hmem
      exact ⟨k, _, .arity element form strict one two⟩

/-- Of the positions that stop the pass one is the first. -/
theorem StopsAt.exists_first {k : Nat} {f : Fault} (h : m.StopsAt s k f) :
    ∃ f', m.FirstStop s f' := by
  induction k using Nat.strong_induction_on generalizing f with
  | _ k ih =>
    by_cases hearlier : ∃ i < k, ∃ f', m.StopsAt s i f'
    · obtain ⟨i, hi, f', h'⟩ := hearlier
      exact ih i hi h'
    · exact ⟨f, k, h, fun i hi f' h' => hearlier ⟨i, hi, f', h'⟩⟩

end Model

namespace Outline

variable {s : Settings} {m : Model} {o : Outline} {done : List Handle}

/-- The declared names of an outline are those at the positions that are done. -/
theorem Forward.mem_declared_iff (ho : o.Forward s m done) {rest : List Handle}
    (hroots : m.roots = done ++ rest) {name : String} :
    name ∈ o.grammar.declared ↔ ∃ i < done.length, m.declaredAt? i = some name := by
  have hat {i : Nat} (hi : i < done.length) : m.declaredAt? i = done[i]?.bind m.declaredName? := by
    rw [Model.declaredAt?, hroots, List.getElem?_append_left hi]
  rw [← ho.declared_perm.mem_iff, List.mem_filterMap]
  constructor
  · rintro ⟨a, ha, hname⟩
    obtain ⟨i, hi⟩ := List.getElem?_of_mem ha
    have hlt := (List.getElem?_eq_some_iff.mp hi).1
    exact ⟨i, hlt, by rw [hat hlt, hi, Option.bind_some, hname]⟩
  · rintro ⟨i, hlt, hname⟩
    rw [hat hlt] at hname
    obtain ⟨a, hi, hname⟩ := Option.bind_eq_some_iff.mp hname
    exact ⟨a, List.mem_of_getElem? hi, hname⟩

/-- Adding the next element fails when it stops the pass. -/
theorem addElement_eq_error_iff_stopsAt (ho : o.Forward s m done) {h : Handle}
    {rest : List Handle} (hroots : m.roots = done ++ h :: rest) {f : Fault} :
    addElement s m o h = .error f ↔ m.StopsAt s done.length f := by
  have hnext : m.roots[done.length]? = some h := by simp [hroots]
  have hdeclared : m.declaredAt? done.length = m.declaredName? h := by
    rw [Model.declaredAt?, hnext, Option.bind_some]
  rw [addElement_eq_error]
  constructor
  · rintro (⟨name, hname, hmem, rfl⟩ | ⟨first, second, tokens, hf, hs, h₁, h₂, rfl⟩)
    · obtain ⟨i, hi, hearlier⟩ := (ho.mem_declared_iff hroots).mp hmem
      exact .repeated (hdeclared.trans hname) hi hearlier
    · exact .arity hnext hf hs h₁ h₂
  · intro hstops
    cases hstops with
    | @repeated name i declared before earlier =>
      exact .inl ⟨name, hdeclared.symm.trans declared,
        (ho.mem_declared_iff hroots).mpr ⟨i, before, earlier⟩, rfl⟩
    | @arity h' first second tokens element form strict one two =>
      obtain rfl : h = h' := Option.some.inj (hnext.symm.trans element)
      exact .inr ⟨first, second, tokens, form, strict, one, two, rfl⟩

/-- Adding elements fails with the fault of the first position that stops the pass. -/
theorem addElements_eq_error {hs : List Handle} (ho : o.Forward s m done)
    (hroots : m.roots = done ++ hs) {f : Fault} :
    addElements s m o hs = .error f ↔ ∃ k, done.length ≤ k ∧ m.StopsAt s k f ∧
      ∀ i, done.length ≤ i → i < k → ∀ f', ¬ m.StopsAt s i f' := by
  induction hs generalizing done o with
  | nil =>
    have hlen : m.roots.length = done.length := by simp [hroots]
    simp only [addElements, reduceCtorEq, false_iff]
    rintro ⟨k, hk, hstops, -⟩
    have := hstops.lt
    omega
  | cons h rest ih =>
    have hstep (f : Fault) := addElement_eq_error_iff_stopsAt ho hroots (f := f)
    rw [addElements, outcome_bind_error]
    cases h₁ : addElement s m o h with
    | error f₁ =>
      have hstops := (hstep f₁).mp h₁
      simp only [Except.error.injEq, reduceCtorEq, false_and, exists_false, or_false]
      constructor
      · rintro rfl
        exact ⟨done.length, Nat.le_refl _, hstops, fun i hi hlt => absurd hi (Nat.not_le.mpr hlt)⟩
      · rintro ⟨k, hk, hk', hfirst⟩
        rcases Nat.eq_or_lt_of_le hk with rfl | hlt
        · exact Except.error.inj (h₁.symm.trans ((hstep f).mpr hk'))
        · exact absurd hstops (hfirst _ (Nat.le_refl _) hlt f₁)
    | ok o₁ =>
      have hgo (f : Fault) : ¬ m.StopsAt s done.length f := by
        rw [← hstep, h₁]
        simp
      have hlater := ih (ho.added (added_of_addElement h₁)) (by simp [hroots])
      rw [List.length_append, List.length_singleton] at hlater
      simp only [reduceCtorEq, Except.ok.injEq, exists_eq_left', false_or, hlater]
      constructor
      · rintro ⟨k, hk, hstops, hfirst⟩
        refine ⟨k, by omega, hstops, fun i hi hlt f' => ?_⟩
        rcases Nat.eq_or_lt_of_le hi with rfl | hi
        · exact hgo f'
        · exact hfirst i hi hlt f'
      · rintro ⟨k, hk, hstops, hfirst⟩
        rcases Nat.eq_or_lt_of_le hk with rfl | hlt
        · exact absurd hstops (hgo f)
        · exact ⟨k, hlt, hstops, fun i hi => hfirst i (by omega)⟩

theorem addElements_eq_error_iff_firstStop {f : Fault} :
    addElements s m (start s) m.roots = .error f ↔ m.FirstStop s f := by
  rw [addElements_eq_error Forward.start (List.nil_append _).symm]
  simp [Model.FirstStop]

/-- When all elements are added, inserting their ends fails with the fault of the first lost one. -/
theorem insertEnds_eq_error_iff_firstFault {f : Fault}
    (h : addElements s m (start s) m.roots = .ok o) :
    insertEnds s m o o.ends = .error f ↔
      FirstFault m.LostEnd (m.roots.flatMap m.ownEnds) f := by
  obtain ⟨hf, howned⟩ := owned_of_addElements h
  rw [insertEnds_eq_error, hf.ends]
  refine findSome?_eq_some_iff_firstFault fun e _ f' => ?_
  rw [Model.LostEnd, ← howned]
  unfold lostEnd?
  cases o.owners.lookup e.receiver <;> simp [eq_comm]

/-- An outline fails with the fault of the first stop or, without a stop, of the first lost end. -/
theorem ofModel_eq_error_iff {f : Fault} :
    ofModel s m = .error f ↔ m.FirstStop s f ∨
      (¬ ∃ k f', m.StopsAt s k f') ∧ FirstFault m.LostEnd (m.roots.flatMap m.ownEnds) f := by
  rw [ofModel, outcome_bind_error, addElements_eq_error_iff_firstStop]
  refine or_congr_right ?_
  constructor
  · rintro ⟨o, hadded, hends⟩
    refine ⟨?_, (insertEnds_eq_error_iff_firstFault hadded).mp hends⟩
    rintro ⟨k, f₁, hstops⟩
    obtain ⟨f₂, hfirst⟩ := hstops.exists_first
    rw [addElements_eq_error_iff_firstStop.mpr hfirst] at hadded
    cases hadded
  · rintro ⟨hgo, hlost⟩
    obtain ⟨o, hadded⟩ : ∃ o, addElements s m (start s) m.roots = .ok o := by
      rw [exists_ok_iff]
      intro f₁ hfailed
      obtain ⟨k, hstops, -⟩ := addElements_eq_error_iff_firstStop.mp hfailed
      exact hgo ⟨k, f₁, hstops⟩
    exact ⟨o, hadded, (insertEnds_eq_error_iff_firstFault hadded).mpr hlost⟩

/-- A class model has no outline when it repeats a declared name, has an association whose number of
tokens is refused, or has a selected end without a receiver. The fault is that of the first
position with one of the first two; only when there is none, that of the first lost end. -/
theorem faults_of_ofModel (s : Settings) (m : Model) :
    ((∃ f, ofModel s m = .error f) ↔ m.RepeatsName ∨ m.RefusesArity s ∨ m.LosesEnd) ∧
      ∀ f, ofModel s m = .error f ↔ m.FirstStop s f ∨
        (¬ m.RepeatsName ∧ ¬ m.RefusesArity s) ∧
          FirstFault m.LostEnd (m.roots.flatMap m.ownEnds) f := by
  rw [← or_assoc, ← Model.exists_stopsAt_iff, ← not_or, ← Model.exists_stopsAt_iff]
  refine ⟨?_, fun f => ofModel_eq_error_iff⟩
  constructor
  · rintro ⟨f, hf⟩
    rcases ofModel_eq_error_iff.mp hf with ⟨k, hstops, -⟩ | ⟨-, before, e, after, hends, -, hlost⟩
    · exact .inl ⟨k, f, hstops⟩
    · exact .inr ⟨e, by simp [hends], hlost.1⟩
  · rintro (⟨k, f, hstops⟩ | ⟨e, he, hlost⟩)
    · obtain ⟨f', hfirst⟩ := hstops.exists_first
      exact ⟨f', ofModel_eq_error_iff.mpr (.inl hfirst)⟩
    · by_contra hno
      have hok : ∃ o, ofModel s m = .ok o := exists_ok_iff.mpr fun f hf => hno ⟨f, hf⟩
      exact hlost ((exists_ofModel_iff.mp hok).owned e he)

/-- A link to an enumeration comes before a class that is called like the enumeration. -/
def clash : Model where
  elements := [
    ⟨none, "", .publicAccess, .association
      ⟨none, "state", .publicAccess, .one, .plain, 1, some 0⟩
      ⟨none, "task", .publicAccess, .one, .plain, 1, some 0⟩ ["task"]⟩,
    ⟨none, "State", .publicAccess, .enumeration []⟩,
    ⟨none, "State", .publicAccess, .classifier false [] []⟩]
  roots := [0, 1, 2]

-- The lost end is queued first, but the repeated name stops the pass before it is inserted.
example : ofModel {} clash = .error (.duplicateInterface "State") := by decide +kernel

end Outline
end ClassGrammar
