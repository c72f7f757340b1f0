import ClassGrammar.Proofs.Outlines.Declarations

/-! Where the attributes of an outline stand. Ends of associations are queued while elements are
added and inserted afterwards by way of the table of owners; each lands at the interface of the
type of the opposite end, after the attributes of the class. -/
namespace ClassGrammar

namespace Model

/-- The elements that declare an interface. -/
def declaring (m : Model) (hs : List Handle) : List Handle :=
  hs.filter fun h => (m.element h).declaresInterface

/-- The attribute for an association end. -/
def endAttribute (s : Settings) (m : Model) (p : Property) : Attribute :=
  .ofProperty s.compositeOptionality .associationEnd p (m.element p.type)

/-- The attributes that the interface of `h` gets from an association: those of the selected ends
whose opposite ends have the type `h`. -/
def received (s : Settings) (m : Model) (h association : Handle) : List Attribute :=
  match (m.element association).form with
  | .association first second tokens => (selectedEnds first tokens).filterMap fun k =>
      if (endAt first second (1 - k)).type = h then
        some (m.endAttribute s (endAt first second k))
      else none
  | _ => []

theorem declaring_append (m : Model) (hs : List Handle) (h : Handle) :
    m.declaring (hs ++ [h]) =
      m.declaring hs ++ if (m.element h).declaresInterface then [h] else [] := by
  simp only [declaring, List.filter_append, List.filter_cons, List.filter_nil]

theorem map_filter_ownEnds (s : Settings) (m : Model) (h association : Handle) :
    ((m.ownEnds association).filter (·.receiver = h)).map (m.endAttribute s ·.property) =
      m.received s h association := by
  cases hf : (m.element association).form with
  | association first second tokens =>
    simp only [ownEnds, received, hf]
    induction selectedEnds first tokens with
    | nil => rfl
    | cons k ks ih =>
      by_cases hk : (endAt first second (1 - k)).type = h <;> simp [hk, ih]
  | _ => simp only [ownEnds, received, hf, List.filter_nil, List.map_nil]

end Model

namespace Outline

section AddAttributes

variable (o : Outline) (owner : Nat) (as : List Attribute)

theorem addAttributes_kept : (o.addAttributes owner as).owners = o.owners ∧
    (o.addAttributes owner as).ends = o.ends ∧
    (o.addAttributes owner as).grammar.unions = o.grammar.unions := by
  induction as generalizing o with
  | nil => exact ⟨rfl, rfl, rfl⟩
  | cons a rest ih => exact ih (o.addAttribute owner a)

theorem addAttributes_interfaces : (o.addAttributes owner as).grammar.interfaces =
    o.grammar.interfaces.modify owner fun i => { i with attributes := i.attributes ++ as } := by
  induction as generalizing o with
  | nil =>
    have hid : (fun i : Interface => { i with attributes := i.attributes ++ [] }) = id := by
      funext i
      simp
    rw [hid, List.modify_id]
    rfl
  | cons a rest ih =>
    rw [addAttributes, ih]
    simp only [addAttribute, List.modify_modify_eq]
    congr 1
    funext i
    simp

end AddAttributes

/-- The interface of an element with some association ends inserted. -/
def withEnds (s : Settings) (m : Model) (es : List NavigableEnd) (h : Handle) : Interface where
  name := (m.element h).name
  superTypes := m.superTypes h
  attributes := m.ownAttributes s h ++
    (es.filter (·.receiver = h)).map (m.endAttribute s ·.property)

/-- What is known of an outline once some elements have been added. -/
structure Forward (s : Settings) (m : Model) (done : List Handle) (o : Outline) : Prop where
  interfaces : o.grammar.interfaces = (m.declaring done).map (withEnds s m [])
  unions : o.grammar.unions = done.filterMap m.union?
  ends : o.ends = done.flatMap m.ownEnds
  owners : ∀ h k, o.owners.lookup h = some k → (m.declaring done)[k]? = some h
  unique : o.grammar.declared.Nodup

namespace Forward

variable {s : Settings} {m : Model} {done : List Handle} {o : Outline}

theorem nodup (ho : o.Forward s m done) : (m.declaring done).Nodup := by
  have hn := (List.nodup_append.mp ho.unique).1
  rw [ho.interfaces, List.map_map] at hn
  exact hn.of_map

theorem length (ho : o.Forward s m done) :
    (m.declaring done).length = o.grammar.interfaces.length := by
  rw [ho.interfaces, List.length_map]

theorem start : (Outline.start s).Forward s m [] where
  interfaces := rfl
  unions := rfl
  ends := rfl
  owners h k hk := by cases hk
  unique := List.nodup_nil

theorem nodup_addInterface {i : Interface} (o : Outline) (hn : o.grammar.declared.Nodup)
    (fresh : i.name ∉ o.grammar.declared) :
    ((o.grammar.interfaces ++ [i]).map (·.name) ++ o.grammar.unions.map (·.name)).Nodup := by
  rw [List.map_append, List.append_assoc]
  refine (List.perm_middle.nodup_iff).mpr (List.nodup_cons.mpr ⟨?_, hn⟩)
  simpa [Grammar.declared] using fresh

theorem addInterface (ho : o.Forward s m done) {h : Handle}
    (declares : (m.element h).declaresInterface = true) (noUnion : m.union? h = none)
    (noEnds : m.ownEnds h = []) (fresh : (m.element h).name ∉ o.grammar.declared) :
    ((o.addInterface h ⟨(m.element h).name, m.superTypes h, []⟩).addAttributes
      o.grammar.interfaces.length (m.ownAttributes s h)).Forward s m (done ++ [h]) := by
  obtain ⟨howners, hends, hunions⟩ := addAttributes_kept
    (o.addInterface h ⟨(m.element h).name, m.superTypes h, []⟩) o.grammar.interfaces.length
    (m.ownAttributes s h)
  have hdeclaring : m.declaring (done ++ [h]) = m.declaring done ++ [h] := by
    rw [Model.declaring_append, if_pos declares]
  have hinterfaces : ((o.addInterface h ⟨(m.element h).name, m.superTypes h, []⟩).addAttributes
      o.grammar.interfaces.length (m.ownAttributes s h)).grammar.interfaces =
        o.grammar.interfaces ++ [withEnds s m [] h] := by
    rw [addAttributes_interfaces, Outline.addInterface, modify_length_append]
    simp [withEnds]
  refine ⟨?_, ?_, ?_, fun h' k hk => ?_, ?_⟩
  · rw [hinterfaces, hdeclaring, ho.interfaces, List.map_append, List.map_singleton]
  · rw [hunions, List.filterMap_append, List.filterMap_cons_none noUnion, List.filterMap_nil,
      List.append_nil]
    exact ho.unions
  · rw [hends, List.flatMap_append, List.flatMap_singleton, noEnds, List.append_nil]
    exact ho.ends
  · rw [howners, Outline.addInterface, List.lookup_cons] at hk
    rw [hdeclaring]
    by_cases he : h' = h
    · simp only [he, beq_self_eq_true, Option.some.injEq] at hk
      simp [← hk, ← ho.length, he]
    · simp only [beq_false_of_ne he] at hk
      have hk' := ho.owners h' k hk
      rw [List.getElem?_append_left (List.getElem?_eq_some_iff.mp hk').1, hk']
  · unfold Grammar.declared
    rw [hinterfaces, hunions]
    exact nodup_addInterface o ho.unique fresh

theorem addUnion (ho : o.Forward s m done) {h : Handle} {u : Union}
    (noInterface : (m.element h).declaresInterface = false) (own : m.union? h = some u)
    (noEnds : m.ownEnds h = []) (fresh : u.name ∉ o.grammar.declared) :
    (o.addUnion u).Forward s m (done ++ [h]) := by
  have hdeclaring : m.declaring (done ++ [h]) = m.declaring done := by
    simp [Model.declaring_append, noInterface]
  refine ⟨?_, ?_, ?_, fun h' k hk => ?_, ?_⟩
  · rw [hdeclaring]
    exact ho.interfaces
  · rw [List.filterMap_append, List.filterMap_cons_some own, List.filterMap_nil, ← ho.unions]
    rfl
  · rw [List.flatMap_append, List.flatMap_singleton, noEnds, List.append_nil]
    exact ho.ends
  · rw [hdeclaring]
    exact ho.owners h' k hk
  · have hn : (o.grammar.declared ++ [u.name]).Nodup :=
      (List.perm_append_singleton u.name _).nodup_iff.mpr (List.nodup_cons.mpr ⟨fresh, ho.unique⟩)
    simpa [Grammar.declared, Outline.addUnion] using hn

theorem addEnds (ho : o.Forward s m done) {h : Handle}
    (noInterface : (m.element h).declaresInterface = false) (noUnion : m.union? h = none) :
    { o with ends := o.ends ++ m.ownEnds h }.Forward s m (done ++ [h]) := by
  have hdeclaring : m.declaring (done ++ [h]) = m.declaring done := by
    simp [Model.declaring_append, noInterface]
  refine ⟨?_, ?_, ?_, fun h' k hk => ?_, ho.unique⟩
  · rw [hdeclaring]
    exact ho.interfaces
  · rw [List.filterMap_append, List.filterMap_cons_none noUnion, List.filterMap_nil,
      List.append_nil]
    exact ho.unions
  · rw [List.flatMap_append, List.flatMap_singleton, ← ho.ends]
  · rw [hdeclaring]
    exact ho.owners h' k hk

theorem added (ho : o.Forward s m done) {h : Handle} {o' : Outline} (ha : Added s m h o o') :
    o'.Forward s m (done ++ [h]) := by
  cases ha with
  | interface declares noUnion noEnds fresh => exact ho.addInterface declares noUnion noEnds fresh
  | union noInterface own noEnds fresh => exact ho.addUnion noInterface own noEnds fresh
  | ends noInterface noUnion => exact ho.addEnds noInterface noUnion

end Forward

/-- Inserting an end changes the interface of its receiver and no other one. -/
theorem insertEnd_interfaces {s : Settings} {m : Model} {ds : List Handle} (hd : ds.Nodup)
    {es : List NavigableEnd} {e : NavigableEnd} {o : Outline} {owner : Nat}
    (ho : o.grammar.interfaces = ds.map (withEnds s m es)) (hk : ds[owner]? = some e.receiver) :
    (o.addAttribute owner (m.endAttribute s e.property)).grammar.interfaces =
      ds.map (withEnds s m (es ++ [e])) := by
  simp only [addAttribute, ho]
  rw [modify_map_of_nodup hd hk]
  refine List.map_congr_left fun h _ => ?_
  by_cases he : h = e.receiver
  · simp [withEnds, he]
  · simp [withEnds, he, Ne.symm he]

/-- The interfaces of a finished outline hold the ends of all associations, and its unions are
those of the enumerations. -/
theorem finished_of_ofModel {s : Settings} {m : Model} {o : Outline} (h : ofModel s m = .ok o) :
    o.grammar.interfaces =
        (m.declaring m.roots).map (withEnds s m (m.roots.flatMap m.ownEnds)) ∧
      o.grammar.unions = m.roots.filterMap m.union? := by
  obtain ⟨o₁, h₁, h₂⟩ := outcome_bind.mp h
  have hf : o₁.Forward s m m.roots :=
    addElements_run (I := fun done o => o.Forward s m done)
      (fun _ _ _ _ ho ha => ho.added ha) Forward.start h₁
  -- Along the insertions the owners stay and each interface holds the ends inserted so far.
  have hrun := insertEnds_run (s := s) (m := m)
    (I := fun es o => o.owners = o₁.owners ∧ o.grammar.unions = o₁.grammar.unions ∧
      o.grammar.interfaces = (m.declaring m.roots).map (withEnds s m es))
    (fun es e o owner ⟨hown, hu, hi⟩ hl => ⟨hown, hu,
      insertEnd_interfaces hf.nodup hi (hf.owners _ _ (hown ▸ hl))⟩)
    ⟨rfl, rfl, hf.interfaces⟩ h₂
  obtain ⟨-, hu, hi⟩ := hrun
  exact ⟨hf.ends ▸ hi, hu.trans hf.unions⟩

/-- Where everything stands in a finished outline. There is one interface for each element that
declares one, in their order; it holds the attributes of the class and then, association by
association, those of the selected ends whose opposite ends have its type. -/
theorem attributes_placed {s : Settings} {m : Model} {o : Outline} (h : ofModel s m = .ok o) :
    o.grammar.interfaces = (m.declaring m.roots).map (fun h =>
        { name := (m.element h).name
          superTypes := m.superTypes h
          attributes := m.ownAttributes s h ++ m.roots.flatMap (m.received s h) }) ∧
      o.grammar.unions = m.roots.filterMap m.union? := by
  obtain ⟨hi, hu⟩ := finished_of_ofModel h
  refine ⟨hi.trans (List.map_congr_left fun d _ => ?_), hu⟩
  have hends : ((m.roots.flatMap m.ownEnds).filter (·.receiver = d)).map
      (m.endAttribute s ·.property) = m.roots.flatMap (m.received s d) := by
    rw [List.filter_flatMap, List.map_flatMap]
    simp only [Model.map_filter_ownEnds]
  rw [withEnds, hends]

/-- Lamps stand left and right of each other and have parts. The associations come first. -/
def lamps : Model where
  elements := [
    ⟨none, "", .publicAccess, .association
      ⟨some "l", "left", .publicAccess, .one, .plain, 2, some 0⟩
      ⟨some "r", "right", .publicAccess, ⟨0, 2⟩, .shared, 2, some 0⟩ ["l", "r"]⟩,
    ⟨none, "", .publicAccess, .association
      ⟨none, "lamp", .publicAccess, .one, .plain, 2, some 1⟩
      ⟨none, "parts", .publicAccess, ⟨0, 2⟩, .composite, 3, some 1⟩ ["parts"]⟩,
    ⟨some "lamp", "Lamp", .publicAccess, .classifier false
      [⟨none, "power", .publicAccess, .one, .plain, 4, none⟩] [⟨none, [3]⟩]⟩,
    ⟨some "part", "Part", .publicAccess, .classifier false [] []⟩,
    ⟨some "int", "Integer", .publicAccess, .primitiveType⟩]
  roots := [0, 1, 2, 3]

theorem lamps_placed : ∃ o, ofModel {} lamps = .ok o ∧
    o.grammar.interfaces.map (fun i => (i.name, i.attributes.map (·.name))) =
      [("Lamp", ["power", "left", "right", "parts"]), ("Part", [])] := by
  have hok : (ofModel {} lamps).toOption.isSome = true := by decide +kernel
  cases h : ofModel {} lamps with
  | error f => simp [h, Except.toOption] at hok
  | ok o =>
    refine ⟨o, rfl, ?_⟩
    rw [(attributes_placed h).1]
    decide +kernel

end Outline
end ClassGrammar
