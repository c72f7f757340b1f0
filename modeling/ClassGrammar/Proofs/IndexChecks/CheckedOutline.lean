import ClassGrammar.Proofs.IndexChecks.CheckedReading
import ClassGrammar.Proofs.Linking.RunsLinkAll
import ClassGrammar.Proofs.Outlines.AttributePlacement

/-! The outline of the run that looks at each index. An association end waits under the handle of
its association and its position there; the indices lead to the end when it is inserted. -/
namespace ClassGrammar

/-- The ends that the policy selects, by position. -/
def ArityPolicy.positions (policy : ArityPolicy) (association : Element) (first second : Property)
    (tokens : List String) : Except Fault (List Nat) :=
  match navigableEnds? first second tokens, policy with
  | some positions, _ => .ok positions
  | none, strict => .error (.associationArity association.describe tokens.length)
  | none, lenient => .ok []

namespace Indexed

/-- An association end on its way, by handles and by its position among the ends. -/
structure Insertion where
  association : Handle
  position : Nat
  receiver : Handle
  deriving DecidableEq, Repr

/-- The type of the other end. The position must leave another one. -/
def receiver (first second : Property) (position : Nat) : Except Halt Handle :=
  if 1 < position then .error .outOfRange
  else do
    let p ← entry [first, second] (1 - position)
    return p.type

/-- An outline and the ends that wait for it. -/
structure Sketch where
  outline : Outline
  insertions : List Insertion := []
  deriving DecidableEq, Repr

/-- The new interface is looked at for its super types. -/
def addInterface (o : Outline) (h : Handle) (i : Interface) : Except Halt Outline := do
  let _ ← entry (o.addInterface h i).grammar.interfaces o.grammar.interfaces.length
  return o.addInterface h i

def addAttribute (o : Outline) (owner : Nat) (a : Attribute) : Except Halt Outline := do
  let _ ← entry o.grammar.interfaces owner
  return o.addAttribute owner a

def addOwned (s : Settings) (m : Model) (o : Outline) (owner : Nat) :
    List Property → Except Halt Outline
  | [] => .ok o
  | p :: rest => do
      let target ← entry m.elements p.type
      let o ← addAttribute o owner (.ofProperty s.compositeOptionality .owned p target)
      addOwned s m o owner rest

def superType (m : Model) (h : Handle) : Except Halt TypeRef := do
  let e ← entry m.elements h
  return ⟨e.name, none⟩

def insertion (h : Handle) (first second : Property) (position : Nat) : Except Halt Insertion := do
  let type ← receiver first second position
  return ⟨h, position, type⟩

def addElement (s : Settings) (m : Model) (k : Sketch) (h : Handle) : Except Halt Sketch := do
  let e ← entry m.elements h
  match e.form with
  | .classifier _ attributes generalizations => do
      free (k.outline.checkUnique e.name)
      let supers ← (generalizations.flatMap (·.targets)).mapM (superType m)
      let o ← addInterface k.outline h ⟨e.name, supers, []⟩
      let o ← addOwned s m o k.outline.grammar.interfaces.length attributes
      return { k with outline := o }
  | .dataType =>
      if (Primitive.ofTypeName? e.name).isSome then return k
      else do
        free (k.outline.checkUnique e.name)
        let o ← addInterface k.outline h ⟨e.name, [], []⟩
        return { k with outline := o }
  | .primitiveType => return k
  | .enumeration literals => do
      free (k.outline.checkUnique e.name)
      return { k with outline := k.outline.addUnion ⟨e.name, literals.map (·.name)⟩ }
  | .association first second tokens => do
      let positions ← free (s.associationArity.positions e first second tokens)
      let insertions ← positions.mapM (insertion h first second)
      return { k with insertions := k.insertions ++ insertions }

def addElements (s : Settings) (m : Model) (k : Sketch) : List Handle → Except Halt Sketch
  | [] => .ok k
  | h :: rest => do
      let k ← addElement s m k h
      addElements s m k rest

/-- Makes an end an attribute. The end and its receiver are found by their indices. -/
def insertEnd (s : Settings) (m : Model) (o : Outline) (i : Insertion) : Except Halt Outline := do
  let association ← entry m.elements i.association
  match association.form with
  | .association first second _ => do
      let p ← entry [first, second] i.position
      match o.owners.lookup i.receiver with
      | some owner => do
          let target ← entry m.elements p.type
          addAttribute o owner (.ofProperty s.compositeOptionality .associationEnd p target)
      | none => do
          let receiver ← entry m.elements i.receiver
          .error (.fault (.danglingReference receiver.name
            s!"owner of end '{p.name}' of association {association.describe}"))
  | _ => return o

def insertEnds (s : Settings) (m : Model) (o : Outline) : List Insertion → Except Halt Outline
  | [] => .ok o
  | i :: rest => do
      let o ← insertEnd s m o i
      insertEnds s m o rest

def ofModel (s : Settings) (m : Model) : Except Halt Outline := do
  let k ← addElements s m { outline := .start s } m.roots
  insertEnds s m k.outline k.insertions

end Indexed

namespace Indexed

/-- Whether an insertion stands for an association end: the indices lead to it and to its
receiver. -/
structure Insertion.StandsFor (m : Model) (i : Insertion) (e : NavigableEnd) : Prop where
  association : m.elements[i.association]? = some e.association
  receiver : i.receiver = e.receiver
  ends : ∃ first second tokens, e.association.form = .association first second tokens ∧
    [first, second][i.position]? = some e.property ∧ ∃ p ∈ [first, second], p.type = e.receiver

/-- Whether a sketch is an outline with insertions in place of its ends. -/
structure Sketch.Shows (m : Model) (k : Sketch) (o : Outline) : Prop where
  outline : k.outline = { o with ends := [] }
  ends : List.Forall₂ (Insertion.StandsFor m) k.insertions o.ends

end Indexed

namespace ArityPolicy

variable {policy : ArityPolicy} {e : Element} {first second : Property} {tokens : List String}

theorem select_eq : policy.select e first second tokens =
    (policy.positions e first second tokens).map
      (List.map (NavigableEnd.ofPosition e first second)) := by
  unfold select positions
  cases navigableEnds? first second tokens <;> cases policy <;> rfl

theorem positions_le_one {ks : List Nat} (h : policy.positions e first second tokens = .ok ks) :
    ∀ k ∈ ks, k ≤ 1 := by
  intro k hk
  have hks : ks = selectedEnds first tokens := by
    rw [← navigableEnds?_eq first second]
    unfold positions at h
    cases hn : navigableEnds? first second tokens <;> cases policy <;> simp_all
  exact selectedEnds_le_one (hks ▸ hk)

end ArityPolicy

namespace Outline

variable {s : Settings} {m : Model} {o : Outline}

theorem addAttributes_ends (es : List NavigableEnd) (owner : Nat) (as : List Attribute) :
    { o with ends := es }.addAttributes owner as =
      { o.addAttributes owner as with ends := es } := by
  induction as generalizing o with
  | nil => rfl
  | cons a rest ih => exact ih (o := o.addAttribute owner a)

theorem addAttribute_guards (o : Outline) (owner : Nat) (a : Attribute) :
    Guards (owner < o.grammar.interfaces.length) Eq (Indexed.addAttribute o owner a)
      (.ok (o.addAttribute owner a)) :=
  .look id fun _ _ => .ok rfl

theorem addInterface_guards (o : Outline) (h : Handle) (i : Interface) :
    Guards True Eq (Indexed.addInterface o h i) (.ok (o.addInterface h i)) :=
  .look (fun _ => by simp [addInterface]) fun _ _ => .ok rfl

theorem addOwned_guards {owner : Nat} {ps : List Property} (hps : ∀ p ∈ ps, p.type < m.size)
    (ho : owner < o.grammar.interfaces.length) :
    Guards True Eq (Indexed.addOwned s m o owner ps) (.ok (o.addAttributes owner (ps.map fun p =>
      .ofProperty s.compositeOptionality .owned p (m.element p.type)))) := by
  induction ps generalizing o with
  | nil => exact .ok rfl
  | cons p rest ih =>
    refine ((m.element_guards p.type).imp fun _ => hps p List.mem_cons_self).bind_ok ?_
    refine ((addAttribute_guards o owner _).imp fun _ => ho).bind_ok ?_
    refine ih (fun q hq => hps q (List.mem_cons_of_mem p hq)) ?_
    rwa [addAttribute_length]

theorem insertion_guards {h : Handle} {first second : Property} {k : Nat} (hk : k ≤ 1) :
    Guards True Eq (Indexed.insertion h first second k)
      (.ok ⟨h, k, (endAt first second (1 - k)).type⟩) := by
  interval_cases k <;> exact .ok rfl

/-- The insertion for a selected end leads to it. -/
theorem standsFor_ofPosition {h : Handle} {e : Element} {first second : Property}
    {tokens : List String} {k : Nat} (he : m.elements[h]? = some e)
    (hf : e.form = .association first second tokens) (hk : k ≤ 1) :
    Indexed.Insertion.StandsFor m ⟨h, k, (endAt first second (1 - k)).type⟩
      (.ofPosition e first second k) := by
  interval_cases k
  · exact ⟨he, rfl, first, second, tokens, hf, rfl, second, by simp, rfl⟩
  · exact ⟨he, rfl, first, second, tokens, hf, rfl, first, by simp, rfl⟩

theorem addElement_guards {k : Indexed.Sketch} {h : Handle} (hm : m.InRange) (hh : h < m.size)
    (hk : k.Shows m o) :
    Guards True (Indexed.Sketch.Shows m) (Indexed.addElement s m k h) (addElement s m o h) := by
  obtain ⟨outline, insertions⟩ := k
  obtain ⟨rfl, hends⟩ := hk
  have he : m.elements[h]? = some (m.element h) := by
    rw [Model.element_of_getElem? (List.getElem?_eq_getElem hh)]
    exact List.getElem?_eq_getElem hh
  have hrange := hm.elements h _ he
  refine ((m.element_guards h).imp fun _ => hh).bind_ok ?_
  unfold addElement
  dsimp only
  cases hf : (m.element h).form with
  | classifier isInterface attributes generalizations =>
    refine (Guards.free _).bind ?_
    rintro _ _ - rfl
    have hsupers : Guards True Eq
        ((generalizations.flatMap (·.targets)).mapM (Indexed.superType m))
        (.ok ((generalizations.flatMap (·.targets)).map fun t => ⟨(m.element t).name, none⟩)) := by
      refine Guards.mapM_ok fun t ht => ?_
      obtain ⟨g, hg, ht⟩ := List.mem_flatMap.mp ht
      have hlt : t < m.size := hrange.targets g (by simpa [Element.generalizations, hf]) t ht
      exact ((m.element_guards t).imp fun _ => hlt).bind_ok (.ok rfl)
    refine hsupers.bind_ok ((addInterface_guards _ h _).bind_ok ?_)
    refine (addOwned_guards (fun p hp => hrange.types p (by simpa [Element.properties, hf]))
      (by simp [addInterface])).bind_ok ?_
    exact .ok ⟨addAttributes_ends (o := addInterface o h _) [] _ _,
      (addAttributes_kept _ _ _).2.1.symm ▸ hends⟩
  | dataType =>
    dsimp only
    split
    · exact .ok ⟨rfl, hends⟩
    · refine (Guards.free _).bind ?_
      rintro _ _ - rfl
      exact (addInterface_guards _ h _).bind_ok (.ok ⟨rfl, hends⟩)
  | primitiveType => exact .ok ⟨rfl, hends⟩
  | enumeration literals =>
    refine (Guards.free _).bind ?_
    rintro _ _ - rfl
    exact .ok ⟨rfl, hends⟩
  | association first second tokens =>
    simp only [ArityPolicy.select_eq]
    cases hp : s.associationArity.positions (m.element h) first second tokens with
    | error f => exact .fault f
    | ok ks =>
      have hks := ArityPolicy.positions_le_one hp
      refine (Guards.mapM_ok fun k hk => insertion_guards (hks k hk)).bind_ok (.ok ⟨rfl, ?_⟩)
      refine List.rel_append hends ?_
      rw [List.forall₂_map_left_iff, List.forall₂_map_right_iff, List.forall₂_same]
      exact fun k hk => standsFor_ofPosition he hf (hks k hk)

theorem addElements_guards {k : Indexed.Sketch} {hs : List Handle} (hm : m.InRange)
    (hroots : ∀ h ∈ hs, h < m.size) (hk : k.Shows m o) :
    Guards True (Indexed.Sketch.Shows m) (Indexed.addElements s m k hs) (addElements s m o hs) := by
  induction hs generalizing k o with
  | nil => exact .ok hk
  | cons h rest ih =>
    refine (addElement_guards hm (hroots h List.mem_cons_self) hk).bind fun k₁ o₁ _ hk₁ => ?_
    exact ih (fun a ha => hroots a (List.mem_cons_of_mem h ha)) hk₁

/-- The interfaces that are recorded for elements are there. -/
def OwnersInRange (o : Outline) : Prop :=
  ∀ h k, o.owners.lookup h = some k → k < o.grammar.interfaces.length

theorem insertEnd_guards {i : Indexed.Insertion} {e : NavigableEnd} (hm : m.InRange)
    (hi : i.StandsFor m e) (ho : o.OwnersInRange) :
    Guards True (fun o' o => o' = { o with ends := [] })
      (Indexed.insertEnd s m { o with ends := [] } i) (insertEnd s m o e) := by
  obtain ⟨first, second, tokens, hf, hproperty, p, hp, htype⟩ := hi.ends
  have hproperties : e.association.properties = [first, second] := by
    simp only [Element.properties, hf]
  have hrange := hm.elements _ _ hi.association
  have hreceiver : e.receiver < m.size := htype ▸ hrange.types p (hproperties ▸ hp)
  have hend : e.property.type < m.size :=
    hrange.types _ (hproperties ▸ List.mem_of_getElem? hproperty)
  unfold Indexed.insertEnd insertEnd
  refine .look_some hi.association ?_
  simp only [hf, hi.receiver]
  refine .look_some hproperty ?_
  cases hl : o.owners.lookup e.receiver with
  | none => exact ((m.element_guards e.receiver).imp fun _ => hreceiver).bind_ok (.fault _)
  | some owner =>
    refine ((m.element_guards e.property.type).imp fun _ => hend).bind_ok ?_
    exact .look (fun _ => ho _ _ hl) fun _ _ => .ok rfl

theorem insertEnds_guards {is : List Indexed.Insertion} {es : List NavigableEnd} (hm : m.InRange)
    (his : List.Forall₂ (Indexed.Insertion.StandsFor m) is es) (ho : o.OwnersInRange) :
    Guards True (fun o' o => o' = { o with ends := [] })
      (Indexed.insertEnds s m { o with ends := [] } is) (insertEnds s m o es) := by
  induction his generalizing o with
  | nil => exact .ok rfl
  | cons hi _ ih =>
    refine (insertEnd_guards hm hi ho).bind ?_
    rintro _ o₁ hinsert rfl
    obtain ⟨owner, howner, rfl⟩ := insertEnd_eq_ok.mp hinsert
    refine ih fun h k hl => ?_
    rw [addAttribute_length]
    exact ho h k hl

/-- An outline is made without an index out of range. -/
theorem ofModel_guards (s : Settings) (hm : m.InRange) :
    Guards True (fun o' o => o' = { o with ends := [] }) (Indexed.ofModel s m) (ofModel s m) := by
  have hstart : Indexed.Sketch.Shows m { outline := start s } (start s) := ⟨rfl, .nil⟩
  refine (addElements_guards hm hm.roots hstart).bind ?_
  rintro ⟨outline, insertions⟩ o hadd ⟨houtline, hends⟩
  have hrecorded : o.Recorded := addElements_run (I := fun _ o => o.Recorded)
    (fun _ _ _ _ ho ha => ho.added ha) (Recorded.start s) hadd
  dsimp only at houtline
  exact houtline ▸ insertEnds_guards hm hends hrecorded.owners

-- A handle without an element does send the run out of range.
example : Indexed.ofModel {} { roots := [0] } = .error .outOfRange := by decide +kernel

end Outline
end ClassGrammar
