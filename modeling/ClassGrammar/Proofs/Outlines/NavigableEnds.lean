import ClassGrammar.Proofs.Outlines.AdmittedModels

/-! Which ends of an association its navigable tokens make attributes. Tokens are meant as
identifiers of ends; two tokens select both ends unseen, and a single one is compared with names as
well. -/
namespace ClassGrammar

/-- Whether some token is the identifier of the property. -/
def Property.identifiedBy (tokens : List String) (p : Property) : Bool :=
  tokens.any fun t => p.id == some t

/-- The ends of an association that have a token as identifier. -/
def identifiedEnds (first second : Property) (tokens : List String) : List Nat :=
  [0, 1].filter fun k => (endAt first second k).identifiedBy tokens

/-- Whether tokens can be taken for identifiers: they are distinct, and a single one is not the name
of a first end that has another identifier. -/
structure TokensClear (first : Property) (tokens : List String) : Prop where
  nodup : tokens.Nodup
  unnamed : ∀ t, tokens = [t] → first.name = t → first.id = some t

section Selection

variable {first second : Property} {tokens : List String} {t t' : String}

theorem identifiedBy_iff {p : Property} :
    p.identifiedBy tokens = true ↔ ∃ t ∈ tokens, p.id = some t := by
  simp [Property.identifiedBy]

theorem identifiedEnds_eq (first second : Property) (tokens : List String) :
    identifiedEnds first second tokens =
      (if first.identifiedBy tokens then [0] else []) ++
        if second.identifiedBy tokens then [1] else [] := by
  cases h : first.identifiedBy tokens <;> cases h' : second.identifiedBy tokens <;>
    simp [identifiedEnds, endAt, h, h']

theorem tokensClear_singleton :
    TokensClear first [t] ↔ (first.name = t → first.id = some t) := by
  constructor
  · intro h
    exact h.unnamed t rfl
  · intro h
    refine ⟨List.nodup_singleton t, ?_⟩
    intro t' ht
    obtain rfl : t = t' := by simpa using ht
    exact h

theorem tokensClear_pair : TokensClear first [t, t'] ↔ t ≠ t' := by
  constructor
  · intro h
    simpa using h.nodup
  · intro h
    exact ⟨by simpa using h, by simp⟩

/-- A single token that identifies the second end selects it unless it is the name of the first. -/
theorem selectedEnds_singleton_iff (hid : first.id = some t ∨ second.id = some t)
    (hne : first.id ≠ second.id) :
    selectedEnds first [t] = identifiedEnds first second [t] ↔
      (first.name = t → first.id = some t) := by
  simp only [identifiedEnds_eq, identifiedBy_iff, List.mem_singleton, exists_eq_left, selectedEnds]
  rcases hid with hfirst | hsecond
  · have hsecond : second.id ≠ some t := fun h => hne (hfirst.trans h.symm)
    simp [hfirst, hsecond]
  · have hfirst : first.id ≠ some t := fun h => hne (h.trans hsecond.symm)
    by_cases hname : first.name = t <;> simp [hfirst, hsecond, hname]

/-- Two tokens identify both ends unless they are equal. -/
theorem selectedEnds_pair_iff (ht : first.id = some t ∨ second.id = some t)
    (ht' : first.id = some t' ∨ second.id = some t') (hne : first.id ≠ second.id) :
    selectedEnds first [t, t'] = identifiedEnds first second [t, t'] ↔ t ≠ t' := by
  have hboth : [0, 1] = identifiedEnds first second [t, t'] ↔
      first.identifiedBy [t, t'] ∧ second.identifiedBy [t, t'] := by
    rw [identifiedEnds_eq]
    cases first.identifiedBy [t, t'] <;> cases second.identifiedBy [t, t'] <;> simp
  rw [selectedEnds, hboth, identifiedBy_iff, identifiedBy_iff]
  constructor
  · rintro ⟨⟨u, hu, hfirst⟩, v, hv, hsecond⟩ rfl
    obtain rfl : u = t := by simpa using hu
    obtain rfl : v = u := by simpa using hv
    exact hne (hfirst.trans hsecond.symm)
  · intro hdiff
    rcases ht with ht | ht <;> rcases ht' with ht' | ht'
    · exact absurd (Option.some.inj (ht.symm.trans ht')) hdiff
    · exact ⟨⟨t, by simp, ht⟩, t', by simp, ht'⟩
    · exact ⟨⟨t', by simp, ht'⟩, t, by simp, ht⟩
    · exact absurd (Option.some.inj (ht.symm.trans ht')) hdiff

/-- Given one or two tokens, each of them the identifier of an end, the selected ends are the
identified ones just when the tokens are clear. -/
theorem selectedEnds_eq_identifiedEnds_iff (hcount : tokens.length = 1 ∨ tokens.length = 2)
    (hid : ∀ t ∈ tokens, first.id = some t ∨ second.id = some t) (hne : first.id ≠ second.id) :
    selectedEnds first tokens = identifiedEnds first second tokens ↔ TokensClear first tokens := by
  match tokens with
  | [] => simp at hcount
  | [t] => rw [selectedEnds_singleton_iff (hid t (by simp)) hne, tokensClear_singleton]
  | [t, t'] =>
    rw [selectedEnds_pair_iff (hid t (by simp)) (hid t' (by simp)) hne, tokensClear_pair]
  | _ :: _ :: _ :: _ => simp at hcount

end Selection

namespace Model

variable {s : Settings} {m : Model} {before after : List Handle} {a : Handle}
  {first second : Property} {tokens : List String}

/-- What an end that is read from its own association adds to the interface of `d`: its attribute,
if some token identifies it and the opposite end has the type `d`. -/
def navigated (s : Settings) (m : Model) (tokens : List String) (own opposite : Property)
    (d : Handle) : List Attribute :=
  if own.identifiedBy tokens ∧ opposite.type = d then [m.endAttribute s own] else []

theorem received_eq_navigated (hform : (m.element a).form = .association first second tokens)
    (hselected : selectedEnds first tokens = identifiedEnds first second tokens) (d : Handle) :
    m.received s d a =
      m.navigated s tokens first second d ++ m.navigated s tokens second first d := by
  simp only [received, hform, hselected, identifiedEnds_eq, navigated]
  cases first.identifiedBy tokens <;> cases second.identifiedBy tokens <;>
    by_cases h₁ : second.type = d <;> by_cases h₂ : first.type = d <;> simp [endAt, h₁, h₂]

theorem declaresInterface_of_association
    (hform : (m.element a).form = .association first second tokens) :
    (m.element a).declaresInterface = false := by
  simp only [Element.declaresInterface, hform]

theorem declaring_without (hroots : m.roots = before ++ a :: after)
    (hnone : (m.element a).declaresInterface = false) :
    m.declaring m.roots = m.declaring (before ++ after) := by
  simp [hroots, declaring, hnone]

/-- An element that declares no interface is not missed among the top-level elements. -/
theorem Admits.without (hm : m.Admits s) (hroots : m.roots = before ++ a :: after)
    (hnone : (m.element a).declaresInterface = false) :
    { m with roots := before ++ after }.Admits s := by
  have hsub : (before ++ after).Sublist m.roots := by
    rw [hroots]
    exact (List.Sublist.refl before).append (List.sublist_cons_self a after)
  constructor
  · exact (hsub.filterMap _).nodup hm.unique
  · intro h hmem
    exact hm.arity h (hsub.subset hmem)
  · intro e he
    obtain ⟨h, hmem, he⟩ := List.mem_flatMap.mp he
    have howned := hm.owned e (List.mem_flatMap.mpr ⟨h, hsub.subset hmem, he⟩)
    rw [declaring_without hroots hnone] at howned
    exact howned

/-- The type opposite to a selected end declares an interface. -/
theorem Admits.receiver (hm : m.Admits s) (ha : a ∈ m.roots)
    (hform : (m.element a).form = .association first second tokens) {k : Nat}
    (hk : k ∈ selectedEnds first tokens) :
    (endAt first second (1 - k)).type ∈ m.declaring m.roots := by
  have hown : (⟨m.element a, endAt first second k, (endAt first second (1 - k)).type⟩ :
      NavigableEnd) ∈ m.ownEnds a := by
    simp only [ownEnds, hform]
    exact List.mem_map_of_mem hk
  exact hm.owned _ (List.mem_flatMap.mpr ⟨a, ha, hown⟩)

end Model

namespace Outline

variable {s : Settings} {m : Model} {o : Outline} {before after : List Handle} {a : Handle}
  {first second : Property} {tokens : List String}

theorem withEnds_attributes_append (es es' : List NavigableEnd) (d : Handle) :
    (withEnds s m (es ++ es') d).attributes = (withEnds s m es d).attributes ++
      (es'.filter (·.receiver = d)).map (m.endAttribute s ·.property) := by
  simp [withEnds]

/-- With one more association each interface gets what it receives from the association, between
what it gets from those before it and from those after it. -/
theorem interfaces_without {without : Outline} (h : ofModel s m = .ok o)
    (hwithout : ofModel s { m with roots := before ++ after } = .ok without)
    (hroots : m.roots = before ++ a :: after)
    (hnone : (m.element a).declaresInterface = false) :
    ∃ front back : Handle → List Attribute,
      without.grammar.interfaces = (m.declaring m.roots).map (fun d =>
        ⟨(m.element d).name, m.superTypes d, front d ++ back d⟩) ∧
      o.grammar.interfaces = (m.declaring m.roots).map (fun d =>
        ⟨(m.element d).name, m.superTypes d, front d ++ m.received s d a ++ back d⟩) := by
  refine ⟨fun d => (withEnds s m (before.flatMap m.ownEnds) d).attributes,
    fun d => ((after.flatMap m.ownEnds).filter (·.receiver = d)).map
      (m.endAttribute s ·.property), ?_, ?_⟩
  · rw [(finished_of_ofModel hwithout).1, Model.declaring_without hroots hnone]
    refine List.map_congr_left fun d _ => ?_
    rw [← withEnds_attributes_append, ← List.flatMap_append]
    rfl
  · rw [(finished_of_ofModel h).1]
    refine List.map_congr_left fun d _ => ?_
    rw [← Model.map_filter_ownEnds, ← withEnds_attributes_append, ← withEnds_attributes_append,
      hroots]
    simp only [List.flatMap_append, List.flatMap_cons, List.append_assoc]
    rfl

theorem nodup_declaring_of_ofModel (h : ofModel s m = .ok o) : (m.declaring m.roots).Nodup := by
  obtain ⟨o₁, h₁, -⟩ := outcome_bind.mp h
  exact (owned_of_addElements h₁).1.nodup

/-- How an outline without an association becomes the outline with it: each interface gets what the
two ends add to it, and one that gets an attribute exists and occurs once. -/
structure Navigates (s : Settings) (m : Model) (tokens : List String) (first second : Property)
    (without o : Outline) : Prop where
  unions : o.grammar.unions = without.grammar.unions
  interfaces : ∃ front back : Handle → List Attribute,
    without.grammar.interfaces = (m.declaring m.roots).map (fun d =>
      ⟨(m.element d).name, m.superTypes d, front d ++ back d⟩) ∧
    o.grammar.interfaces = (m.declaring m.roots).map (fun d =>
      ⟨(m.element d).name, m.superTypes d, front d ++
        (m.navigated s tokens first second d ++ m.navigated s tokens second first d) ++ back d⟩)
  nodup : (m.declaring m.roots).Nodup
  receiver : first.identifiedBy tokens → second.type ∈ m.declaring m.roots
  receiver' : second.identifiedBy tokens → first.type ∈ m.declaring m.roots

/-- Navigability is honoured end by end when the tokens are clear. With the association each end
that some token identifies adds its attribute once to the interface of the type of the opposite end;
the other ends add nothing. -/
theorem navigates_of_ofModel (h : ofModel s m = .ok o) (hroots : m.roots = before ++ a :: after)
    (hform : (m.element a).form = .association first second tokens)
    (hcount : tokens.length = 1 ∨ tokens.length = 2)
    (hid : ∀ t ∈ tokens, first.id = some t ∨ second.id = some t) (hne : first.id ≠ second.id)
    (hclear : TokensClear first tokens) :
    ∃ without, ofModel s { m with roots := before ++ after } = .ok without ∧
      Navigates s m tokens first second without o := by
  have hselected := (selectedEnds_eq_identifiedEnds_iff hcount hid hne).mpr hclear
  have hadmits := exists_ofModel_iff.mp ⟨o, h⟩
  have hnone := Model.declaresInterface_of_association hform
  obtain ⟨without, hwithout⟩ := exists_ofModel_iff.mpr (hadmits.without hroots hnone)
  have hreceiver {k : Nat} (hk : k ∈ identifiedEnds first second tokens) :
      (endAt first second (1 - k)).type ∈ m.declaring m.roots :=
    hadmits.receiver (by simp [hroots]) hform (hselected ▸ hk)
  refine ⟨without, hwithout, ?_, ?_, nodup_declaring_of_ofModel h, ?_, ?_⟩
  · have hunion : m.union? a = none := by simp only [Model.union?, hform]
    rw [(finished_of_ofModel h).2, (finished_of_ofModel hwithout).2, hroots,
      List.filterMap_append, List.filterMap_cons_none hunion, ← List.filterMap_append]
    rfl
  · obtain ⟨front, back, hbefore, hafter⟩ := interfaces_without h hwithout hroots hnone
    refine ⟨front, back, hbefore, ?_⟩
    simp only [hafter, Model.received_eq_navigated hform hselected]
  · intro hfirst
    exact hreceiver (k := 0) (by simp [identifiedEnds_eq, hfirst])
  · intro hsecond
    exact hreceiver (k := 1) (by simp [identifiedEnds_eq, hsecond])

def shipEnd (name : String) : Property := ⟨some "e", name, .publicAccess, .one, .plain, 1, some 0⟩

def routeEnd : Property := ⟨some "f", "route", .publicAccess, .one, .plain, 2, some 0⟩

/-- Ships sail on lines. -/
def fleet (name : String) (tokens : List String) : Model where
  elements := [
    ⟨none, "", .publicAccess, .association (shipEnd name) routeEnd tokens⟩,
    ⟨some "ship", "Ship", .publicAccess, .classifier false [] []⟩,
    ⟨some "line", "Line", .publicAccess, .classifier false [] []⟩]
  roots := [0, 1, 2]

/-- The interfaces of an outline with the names of their attributes. -/
def attributeNames (o : Outline) : List (String × List String) :=
  o.grammar.interfaces.map fun i => (i.name, i.attributes.map (·.name))

theorem fleet_navigates : ∃ without o,
    ofModel {} { fleet "ship" ["f"] with roots := [1, 2] } = .ok without ∧
      ofModel {} (fleet "ship" ["f"]) = .ok o ∧
      Navigates {} (fleet "ship" ["f"]) ["f"] (shipEnd "ship") routeEnd without o ∧
      attributeNames o = [("Ship", ["route"]), ("Line", [])] := by
  have hok : (ofModel {} (fleet "ship" ["f"])).map attributeNames =
      .ok [("Ship", ["route"]), ("Line", [])] := by decide +kernel
  cases ho : ofModel {} (fleet "ship" ["f"]) with
  | error f =>
    rw [ho] at hok
    cases hok
  | ok o =>
    rw [ho] at hok
    have hroots : (fleet "ship" ["f"]).roots = [] ++ 0 :: [1, 2] := rfl
    have hclear : TokensClear (shipEnd "ship") ["f"] :=
      ⟨by decide, by simp [shipEnd]⟩
    obtain ⟨without, hwithout, hnav⟩ := navigates_of_ofModel ho hroots rfl (.inl rfl) (by decide)
      (by decide) hclear
    exact ⟨without, o, hwithout, rfl, hnav, Except.ok.inj hok⟩

/-- With a token twice both ends become attributes, though the second is not identified. With the
identifier of the second end that is the name of the first end, the first end becomes one. -/
theorem fleet_mistaken :
    ((shipEnd "ship").identifiedBy ["e", "e"] = true ∧ routeEnd.identifiedBy ["e", "e"] = false ∧
      (ofModel {} (fleet "ship" ["e", "e"])).map attributeNames =
        .ok [("Ship", ["route"]), ("Line", ["ship"])]) ∧
    (shipEnd "f").identifiedBy ["f"] = false ∧ routeEnd.identifiedBy ["f"] = true ∧
      (ofModel {} (fleet "f" ["f"])).map attributeNames = .ok [("Ship", []), ("Line", ["f"])] := by
  decide +kernel

end Outline
end ClassGrammar
