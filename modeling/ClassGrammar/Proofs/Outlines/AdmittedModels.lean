import ClassGrammar.Proofs.Outlines.AttributePlacement

/-! Which class models have an outline. Declared names have to be distinct, associations need one or
two navigable tokens unless the settings are lenient, and each selected end needs an interface that
receives it. -/
namespace ClassGrammar

namespace Model

/-- The name under which an element is declared. -/
def declaredName? (m : Model) (h : Handle) : Option String :=
  if (m.element h).declaresInterface then some (m.element h).name
  else (m.union? h).map (·.name)

/-- Whether the settings accept the number of navigable tokens of an association. -/
def AcceptsArity (s : Settings) (m : Model) (h : Handle) : Prop :=
  ∀ first second tokens, (m.element h).form = .association first second tokens →
    s.associationArity = .lenient ∨ tokens.length = 1 ∨ tokens.length = 2

structure Admits (s : Settings) (m : Model) : Prop where
  unique : (m.roots.filterMap m.declaredName?).Nodup
  arity : ∀ h ∈ m.roots, m.AcceptsArity s h
  owned : ∀ e ∈ m.roots.flatMap m.ownEnds, e.receiver ∈ m.declaring m.roots

theorem declaredNames_perm (m : Model) (hs : List Handle) :
    (hs.filterMap m.declaredName?).Perm ((m.declaring hs).map (fun h => (m.element h).name) ++
      (hs.filterMap m.union?).map (·.name)) := by
  induction hs with
  | nil => exact .nil
  | cons h rest ih =>
    cases hd : (m.element h).declaresInterface with
    | true =>
      -- An interface is no union, so the name goes to the front part.
      have hu : m.union? h = none := by
        unfold Element.declaresInterface at hd
        unfold union?
        cases hf : (m.element h).form <;> simp_all
      have hname : m.declaredName? h = some (m.element h).name := by simp [declaredName?, hd]
      rw [List.filterMap_cons_some hname, List.filterMap_cons_none hu]
      simpa [declaring, hd] using ih
    | false =>
      have hdeclaring : m.declaring (h :: rest) = m.declaring rest := by simp [declaring, hd]
      rw [hdeclaring]
      cases hu : m.union? h with
      | none =>
        have hname : m.declaredName? h = none := by simp [declaredName?, hd, hu]
        rw [List.filterMap_cons_none hname, List.filterMap_cons_none hu]
        exact ih
      | some u =>
        have hname : m.declaredName? h = some u.name := by simp [declaredName?, hd, hu]
        rw [List.filterMap_cons_some hname, List.filterMap_cons_some hu, List.map_cons]
        exact (ih.cons u.name).trans List.perm_middle.symm

end Model

theorem ArityPolicy.select_eq_error {policy : ArityPolicy} {e : Element}
    {first second : Property} {tokens : List String} {f : Fault} :
    policy.select e first second tokens = .error f ↔ policy = .strict ∧ tokens.length ≠ 1 ∧
      tokens.length ≠ 2 ∧ .associationArity e.describe tokens.length = f := by
  match tokens with
  | [] => cases policy <;> simp [select, navigableEnds?]
  | [_] => simp [select, navigableEnds?]
  | [_, _] => simp [select, navigableEnds?]
  | _ :: _ :: _ :: _ => cases policy <;> simp [select, navigableEnds?]

namespace Outline

variable {s : Settings} {m : Model}

theorem checkUnique_eq_error {o : Outline} {name : String} {f : Fault} :
    o.checkUnique name = .error f ↔ name ∈ o.grammar.declared ∧ .duplicateInterface name = f := by
  rw [← Grammar.hasType_iff, checkUnique]
  cases o.grammar.hasType name <;> simp

/-- Adding an element fails when its name is taken or its number of tokens is refused. -/
theorem addElement_eq_error {o : Outline} {h : Handle} {f : Fault} :
    addElement s m o h = .error f ↔
      (∃ name, m.declaredName? h = some name ∧ name ∈ o.grammar.declared ∧
        .duplicateInterface name = f) ∨
      ∃ first second tokens, (m.element h).form = .association first second tokens ∧
        s.associationArity = .strict ∧ tokens.length ≠ 1 ∧ tokens.length ≠ 2 ∧
        .associationArity (m.element h).describe tokens.length = f := by
  unfold addElement
  cases hf : (m.element h).form with
  | classifier isInterface attributes generalizations =>
    have hd : (m.element h).declaresInterface = true := by simp only [Element.declaresInterface, hf]
    simp only [hf]
    rw [outcome_bind_pure_error, checkUnique_eq_error]
    simp [Model.declaredName?, hd]
  | dataType =>
    simp only [hf]
    cases hp : Primitive.ofTypeName? (m.element h).name with
    | some p =>
      have hd : (m.element h).declaresInterface = false := by
        simp only [Element.declaresInterface, hf, hp, Option.isNone_some]
      simp [Model.declaredName?, hd, Model.union?, hf, pure, Except.pure]
    | none =>
      have hd : (m.element h).declaresInterface = true := by
        simp only [Element.declaresInterface, hf, hp, Option.isNone_none]
      simp only [Option.isSome_none, Bool.false_eq_true, if_false]
      rw [outcome_bind_pure_error, checkUnique_eq_error]
      simp [Model.declaredName?, hd]
  | primitiveType =>
    have hd : (m.element h).declaresInterface = false := by
      simp only [Element.declaresInterface, hf]
    simp [hf, Model.declaredName?, hd, Model.union?, pure, Except.pure]
  | enumeration literals =>
    have hd : (m.element h).declaresInterface = false := by
      simp only [Element.declaresInterface, hf]
    simp only [hf]
    rw [outcome_bind_pure_error, checkUnique_eq_error]
    simp [Model.declaredName?, hd, Model.union?, hf]
  | association first second tokens =>
    have hd : (m.element h).declaresInterface = false := by
      simp only [Element.declaresInterface, hf]
    simp only [hf]
    rw [outcome_bind_pure_error, ArityPolicy.select_eq_error]
    simp [Model.declaredName?, hd, Model.union?, hf]

/-- An element can be added when its name is new and its number of tokens is accepted. -/
theorem exists_addElement_iff {o : Outline} {h : Handle} :
    (∃ o', addElement s m o h = .ok o') ↔
      (∀ name, m.declaredName? h = some name → name ∉ o.grammar.declared) ∧
        m.AcceptsArity s h := by
  have hpolicy : s.associationArity = .lenient ↔ s.associationArity ≠ .strict := by
    cases s.associationArity <;> simp
  simp only [exists_ok_iff, ne_eq, addElement_eq_error, Model.AcceptsArity, hpolicy]
  constructor
  · intro hnone
    refine ⟨fun name hname hmem => hnone _ (.inl ⟨name, hname, hmem, rfl⟩), ?_⟩
    intro first second tokens hf
    by_contra hbad
    push Not at hbad
    exact hnone _ (.inr ⟨first, second, tokens, hf, hbad.1, hbad.2.1, hbad.2.2, rfl⟩)
  · rintro ⟨hfresh, harity⟩ f (⟨name, hname, hmem, -⟩ | ⟨first, second, tokens, hf, hs, h₁, h₂, -⟩)
    · exact hfresh name hname hmem
    · rcases harity first second tokens hf with h | h | h
      · exact h hs
      · exact h₁ h
      · exact h₂ h

/-- The declared names of an outline are those of the elements that have been added. -/
theorem Forward.declared_perm {done : List Handle} {o : Outline} (ho : o.Forward s m done) :
    (done.filterMap m.declaredName?).Perm o.grammar.declared := by
  have hnames : o.grammar.interfaces.map (·.name) =
      (m.declaring done).map fun h => (m.element h).name := by
    rw [ho.interfaces, List.map_map]
    rfl
  rw [Grammar.declared, hnames, ho.unions]
  exact m.declaredNames_perm done

theorem exists_addElements {done hs : List Handle} {o : Outline} (ho : o.Forward s m done)
    (hn : ((done ++ hs).filterMap m.declaredName?).Nodup)
    (harity : ∀ h ∈ hs, m.AcceptsArity s h) : ∃ o', addElements s m o hs = .ok o' := by
  induction hs generalizing done o with
  | nil => exact ⟨o, rfl⟩
  | cons h rest ih =>
    have hfresh : ∀ name, m.declaredName? h = some name → name ∉ o.grammar.declared := by
      intro name hname hmem
      have hdone := ho.declared_perm.mem_iff.mpr hmem
      rw [List.filterMap_append, List.filterMap_cons_some hname] at hn
      exact (List.nodup_append.mp hn).2.2 name hdone name List.mem_cons_self rfl
    obtain ⟨o₁, h₁⟩ := exists_addElement_iff.mpr ⟨hfresh, harity h List.mem_cons_self⟩
    have ho₁ : o₁.Forward s m (done ++ [h]) := ho.added (added_of_addElement h₁)
    rw [List.append_cons] at hn
    obtain ⟨o', h'⟩ := ih ho₁ hn fun a ha => harity a (List.mem_cons_of_mem h ha)
    exact ⟨o', outcome_bind.mpr ⟨o₁, h₁, h'⟩⟩

theorem arity_of_addElements {hs : List Handle} {o o' : Outline}
    (h : addElements s m o hs = .ok o') : ∀ a ∈ hs, m.AcceptsArity s a := by
  induction hs generalizing o with
  | nil => simp
  | cons a rest ih =>
    obtain ⟨o₁, h₁, hrest⟩ := outcome_bind.mp h
    rw [List.forall_mem_cons]
    exact ⟨(exists_addElement_iff.mp ⟨o₁, h₁⟩).2, ih hrest⟩

/-- Whether each element that declares an interface is in the table of owners. -/
def Owned (m : Model) (done : List Handle) (o : Outline) : Prop :=
  ∀ h ∈ m.declaring done, (o.owners.lookup h).isSome

theorem Owned.added {done : List Handle} {h : Handle} {o o' : Outline} (ho : Owned m done o)
    (ha : Added s m h o o') : Owned m (done ++ [h]) o' := by
  intro a hmem
  rw [Model.declaring_append, List.mem_append] at hmem
  cases ha with
  | interface declares _ _ _ =>
    rw [(addAttributes_kept _ _ _).1, addInterface, List.lookup_cons]
    by_cases he : a = h
    · simp [he]
    · simp only [declares, if_true, List.mem_singleton, he, or_false] at hmem
      simpa [beq_false_of_ne he] using ho a hmem
  | union noInterface _ _ _ =>
    simp only [noInterface, Bool.false_eq_true, if_false, List.not_mem_nil, or_false] at hmem
    exact ho a hmem
  | ends noInterface _ =>
    simp only [noInterface, Bool.false_eq_true, if_false, List.not_mem_nil, or_false] at hmem
    exact ho a hmem

/-- The fault of an end that no interface receives. -/
def lostEnd? (m : Model) (o : Outline) (e : NavigableEnd) : Option Fault :=
  match o.owners.lookup e.receiver with
  | some _ => none
  | none => some (.danglingReference (m.element e.receiver).name
      s!"owner of end '{e.property.name}' of association {e.association.describe}")

/-- Inserting ends fails at the first one that is lost. The table of owners stays as it is. -/
theorem insertEnds_eq_error {es : List NavigableEnd} {o : Outline} {f : Fault} :
    insertEnds s m o es = .error f ↔ es.findSome? (lostEnd? m o) = some f := by
  induction es generalizing o with
  | nil => simp [insertEnds]
  | cons e rest ih =>
    rw [insertEnds, outcome_bind_error, List.findSome?_cons]
    unfold insertEnd
    cases howner : o.owners.lookup e.receiver with
    | none => simp [lostEnd?, howner]
    | some owner =>
      have hfound : lostEnd? m o e = none := by simp only [lostEnd?, howner]
      have hkept (a : Attribute) : lostEnd? m (o.addAttribute owner a) = lostEnd? m o := rfl
      simp [ih, hkept, hfound]

/-- Ends can be inserted when each of them has an owner. -/
theorem exists_insertEnds_iff {es : List NavigableEnd} {o : Outline} :
    (∃ o', insertEnds s m o es = .ok o') ↔ ∀ e ∈ es, (o.owners.lookup e.receiver).isSome := by
  have hfound (e : NavigableEnd) :
      lostEnd? m o e = none ↔ (o.owners.lookup e.receiver).isSome := by
    unfold lostEnd?
    cases o.owners.lookup e.receiver <;> simp
  simp only [exists_ok_iff, ne_eq, insertEnds_eq_error, ← Option.eq_none_iff_forall_ne_some,
    List.findSome?_eq_none_iff, hfound]

/-- When all elements are added, the receivers with an owner are those that declare an
interface. -/
theorem owned_of_addElements {o : Outline} (h : addElements s m (start s) m.roots = .ok o) :
    o.Forward s m m.roots ∧
      ∀ a, (o.owners.lookup a).isSome ↔ a ∈ m.declaring m.roots := by
  obtain ⟨hf, howned⟩ : o.Forward s m m.roots ∧ Owned m m.roots o :=
    addElements_run (I := fun done o => o.Forward s m done ∧ Owned m done o)
      (fun _ _ _ _ ho ha => ⟨ho.1.added ha, ho.2.added ha⟩)
      ⟨Forward.start, by intro h hmem; cases hmem⟩ h
  refine ⟨hf, fun a => ⟨fun hsome => ?_, howned a⟩⟩
  obtain ⟨k, hk⟩ := Option.isSome_iff_exists.mp hsome
  exact List.mem_of_getElem? (hf.owners a k hk)

/-- A class model has an outline just when it is admitted. -/
theorem exists_ofModel_iff : (∃ o, ofModel s m = .ok o) ↔ m.Admits s := by
  constructor
  · rintro ⟨o, ho⟩
    obtain ⟨o₁, h₁, h₂⟩ := outcome_bind.mp ho
    obtain ⟨hf, howned⟩ := owned_of_addElements h₁
    refine ⟨hf.declared_perm.nodup_iff.mpr hf.unique, arity_of_addElements h₁, fun e he => ?_⟩
    rw [← hf.ends] at he
    exact (howned e.receiver).mp (exists_insertEnds_iff.mp ⟨o, h₂⟩ e he)
  · intro hm
    obtain ⟨o₁, h₁⟩ := exists_addElements (s := s) Forward.start hm.unique hm.arity
    obtain ⟨hf, howned⟩ := owned_of_addElements h₁
    obtain ⟨o, h₂⟩ := (exists_insertEnds_iff (s := s) (m := m)).mpr fun e he =>
      (howned e.receiver).mpr (hm.owned e (hf.ends ▸ he))
    exact ⟨o, outcome_bind.mpr ⟨o₁, h₁, h₂⟩⟩

/-- A finished outline declares the names of the top-level elements, those of enumerations last. -/
theorem declared_of_ofModel {o : Outline} (h : ofModel s m = .ok o) :
    o.grammar.declared = (m.declaring m.roots).map (fun h => (m.element h).name) ++
      (m.roots.filterMap m.union?).map (·.name) := by
  obtain ⟨hi, hu⟩ := finished_of_ofModel h
  have hnames : o.grammar.interfaces.map (·.name) =
      (m.declaring m.roots).map fun h => (m.element h).name := by
    rw [hi, List.map_map]
    rfl
  rw [Grammar.declared, hnames, hu]

theorem declared_perm_of_ofModel {o : Outline} (h : ofModel s m = .ok o) :
    (m.roots.filterMap m.declaredName?).Perm o.grammar.declared := by
  rw [declared_of_ofModel h]
  exact m.declaredNames_perm m.roots

/-- The names that a finished outline declares are distinct. -/
theorem nodup_declared_of_ofModel {o : Outline} (h : ofModel s m = .ok o) :
    o.grammar.declared.Nodup :=
  (declared_perm_of_ofModel h).nodup_iff.mp (exists_ofModel_iff.mp ⟨o, h⟩).unique

end Outline
end ClassGrammar
