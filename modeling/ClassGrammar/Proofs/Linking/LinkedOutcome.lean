import ClassGrammar.Proofs.Linking.PendingSlots

/-! What linking all cells of a grammar gives. A grammar is known by what is left of it without
targets, together with its cells; linking changes the cells alone, so the linked grammar is the
given one with every name looked up. -/
namespace ClassGrammar

def TypeRef.unlinked (ref : TypeRef) : TypeRef := { ref with target := none }

namespace TypeExpr

/-- The expression with a change to the reference inside it, if it has one. -/
def mapRef (f : TypeRef → TypeRef) (t : TypeExpr) : TypeExpr :=
  match t.typeRef? with
  | some ref => t.withInnermost (.named (f ref))
  | none => t

theorem withInnermost_withInnermost (t : TypeExpr) (s s' : SimpleType) :
    (t.withInnermost s).withInnermost s' = t.withInnermost s' := by
  induction t with
  | simple => rfl
  | reference => rfl
  | array e ih => simp [withInnermost, ih]

theorem withInnermost_innermost (t : TypeExpr) : t.withInnermost t.innermost = t := by
  induction t with
  | simple => rfl
  | reference => rfl
  | array e ih => simp [withInnermost, innermost, ih]

theorem innermost_of_typeRef? {t : TypeExpr} {ref : TypeRef} (h : t.typeRef? = some ref) :
    t.innermost = .named ref := by
  unfold typeRef? at h
  split at h
  · cases h
    assumption
  · cases h

@[simp] theorem typeRef?_mapRef (f : TypeRef → TypeRef) (t : TypeExpr) :
    (t.mapRef f).typeRef? = t.typeRef?.map f := by
  unfold mapRef
  cases h : t.typeRef? with
  | none => simpa using h
  | some ref => simp [typeRef?]

theorem mapRef_mapRef (f f' : TypeRef → TypeRef) (t : TypeExpr) :
    (t.mapRef f).mapRef f' = t.mapRef (f' ∘ f) := by
  have h := typeRef?_mapRef f t
  cases ht : t.typeRef? with
  | none => simp [mapRef, ht]
  | some ref =>
    rw [ht, Option.map_some] at h
    have hleft : (t.mapRef f).mapRef f' = (t.mapRef f).withInnermost (.named (f' (f ref))) := by
      rw [mapRef, h]
    have hright : t.mapRef (f' ∘ f) = t.withInnermost (.named (f' (f ref))) := by
      rw [mapRef, ht]
      rfl
    have hf : t.mapRef f = t.withInnermost (.named (f ref)) := by rw [mapRef, ht]
    rw [hleft, hright, hf, withInnermost_withInnermost]

/-- A type is known by its form and the reference inside it. -/
theorem eq_of_mapRef {f : TypeRef → TypeRef} {t t' : TypeExpr} (h : t.mapRef f = t'.mapRef f)
    (href : t.typeRef? = t'.typeRef?) : t = t' := by
  unfold mapRef at h
  cases ht : t.typeRef? with
  | none =>
    rw [ht] at href
    simpa [ht, ← href] using h
  | some ref =>
    rw [ht] at href
    simp only [ht, ← href] at h
    have hs := congrArg (withInnermost (.named ref)) h
    rw [withInnermost_withInnermost, withInnermost_withInnermost,
      ← innermost_of_typeRef? ht, withInnermost_innermost] at hs
    rw [hs, innermost_of_typeRef? ht, ← innermost_of_typeRef? href.symm, withInnermost_innermost]

theorem primitive?_mapRef (f : TypeRef → TypeRef) (t : TypeExpr) :
    (t.mapRef f).primitive? = t.primitive? := by
  unfold mapRef
  cases ht : t.typeRef? with
  | none => rfl
  | some ref => simp [primitive?, innermost_of_typeRef? ht]

@[simp] theorem isArray_mapRef (f : TypeRef → TypeRef) (t : TypeExpr) :
    (t.mapRef f).isArray = t.isArray := by
  unfold mapRef
  split
  · cases t <;> rfl
  · rfl

theorem isReference_withInnermost (t : TypeExpr) (s : SimpleType) :
    (t.withInnermost s).isReference = t.isReference := by
  induction t with
  | simple => rfl
  | reference => rfl
  | array e ih => exact ih

@[simp] theorem isReference_mapRef (f : TypeRef → TypeRef) (t : TypeExpr) :
    (t.mapRef f).isReference = t.isReference := by
  unfold mapRef
  split
  · exact t.isReference_withInnermost _
  · rfl

end TypeExpr

/-- The attribute with a change to the reference in its type. -/
def Attribute.mapRef (f : TypeRef → TypeRef) (a : Attribute) : Attribute :=
  { a with type := a.type.mapRef f }

/-- The interface with changes to its super types and to the references of its attributes. -/
def Interface.mapRefs (f f' : TypeRef → TypeRef) (i : Interface) : Interface :=
  { i with
    superTypes := i.superTypes.map f
    attributes := i.attributes.map (Attribute.mapRef f') }

def Interface.unlinked : Interface → Interface := Interface.mapRefs .unlinked .unlinked

namespace Grammar

def mapRefs (f f' : TypeRef → TypeRef) (g : Grammar) : Grammar :=
  { g with interfaces := g.interfaces.map (Interface.mapRefs f f') }

/-- The grammar without targets. -/
def unlinked : Grammar → Grammar := mapRefs .unlinked .unlinked

/-- The grammar with each reference linked to what it has for the name. -/
def resolved (g : Grammar) : Grammar :=
  g.mapRefs (g.lookUp (.superType 0)) (g.lookUp (.attribute 0))

/-- Whether every super type names an interface and every type of an attribute a declaration. -/
structure Closed (g : Grammar) : Prop where
  superTypes : ∀ i ∈ g.interfaces, ∀ ref ∈ i.superTypes, ref.name ∈ g.interfaces.map (·.name)
  types : ∀ i ∈ g.interfaces, ∀ a ∈ i.attributes, ∀ ref, a.type.typeRef? = some ref →
    ref.name ∈ g.declared

theorem refAt?_mapRefs (f f' : TypeRef → TypeRef) (i : Interface) (p : Place) :
    refAt? (i.mapRefs f f') p = (refAt? i p).map (match p with
      | .superType _ => f
      | .attribute _ => f') := by
  match p with
  | .superType k => simp [refAt?, Interface.mapRefs]
  | .attribute k =>
    simp only [refAt?, Interface.mapRefs, List.getElem?_map]
    cases i.attributes[k]? <;> simp [Attribute.mapRef]

/-- An interface is known by what it is without targets and by its references. -/
theorem eq_of_unlinked_of_refAt? {i i' : Interface} (hu : i.unlinked = i'.unlinked)
    (hr : ∀ p, refAt? i p = refAt? i' p) : i = i' := by
  have hname : i.unlinked.name = i'.unlinked.name := by rw [hu]
  change i.name = i'.name at hname
  have hsupers : i.superTypes = i'.superTypes :=
    List.ext_getElem? fun k => hr (.superType k)
  have hattributes : i.attributes = i'.attributes := by
    apply List.ext_getElem?
    intro k
    have hk : (i.unlinked.attributes)[k]? = (i'.unlinked.attributes)[k]? := by rw [hu]
    have href := hr (.attribute k)
    simp only [Interface.unlinked, Interface.mapRefs, List.getElem?_map] at hk
    simp only [refAt?] at href
    cases ha : i.attributes[k]? with
    | none =>
      rw [ha, Option.map_none] at hk
      exact (Option.map_eq_none_iff.mp hk.symm).symm
    | some a =>
      cases ha' : i'.attributes[k]? with
      | none => simp [ha, ha'] at hk
      | some a' =>
        simp only [ha, ha', Option.map_some, Option.some.injEq, Option.bind_some,
          Attribute.mapRef, Attribute.mk.injEq] at hk href
        obtain ⟨hn, ho, ht⟩ := hk
        have htype := TypeExpr.eq_of_mapRef ht href
        cases a
        cases a'
        simp_all
  cases i
  cases i'
  simp_all

/-- A grammar is known by what it is without targets and by its cells. -/
theorem eq_of_unlinked_of_cells {g g' : Grammar} (hu : g.unlinked = g'.unlinked)
    (hc : ∀ slot, g.cell? slot = g'.cell? slot) : g = g' := by
  have hmap : g.interfaces.map Interface.unlinked = g'.interfaces.map Interface.unlinked :=
    congrArg Grammar.interfaces hu
  have hinterfaces : g.interfaces = g'.interfaces := by
    apply List.ext_getElem?
    intro k
    have hk := congrArg (·[k]?) hmap
    simp only [List.getElem?_map] at hk
    cases hi : g.interfaces[k]? with
    | none =>
      rw [hi, Option.map_none] at hk
      exact (Option.map_eq_none_iff.mp hk.symm).symm
    | some i =>
      cases hi' : g'.interfaces[k]? with
      | none => simp [hi, hi'] at hk
      | some i' =>
        simp only [hi, hi', Option.map_some, Option.some.injEq] at hk
        refine congrArg some (eq_of_unlinked_of_refAt? hk fun p => ?_)
        have hp := hc ⟨k, p⟩
        rwa [cell?, cell?, interface_of_getElem? hi, interface_of_getElem? hi'] at hp
  have hname : g.unlinked.name = g'.unlinked.name := by rw [hu]
  have hentry : g.unlinked.entryRule = g'.unlinked.entryRule := by rw [hu]
  have hunions : g.unlinked.unions = g'.unlinked.unions := by rw [hu]
  have hprimitives : g.unlinked.primitives = g'.unlinked.primitives := by rw [hu]
  cases g
  cases g'
  simp_all [unlinked, mapRefs]

theorem cell?_mapRefs (f f' : TypeRef → TypeRef) (g : Grammar) (slot : Slot) :
    (g.mapRefs f f').cell? slot = (g.cell? slot).map (match slot.place with
      | .superType _ => f
      | .attribute _ => f') := by
  obtain ⟨k, p⟩ := slot
  cases hi : g.interfaces[k]? with
  | none =>
    have hlen : g.interfaces.length ≤ k := List.getElem?_eq_none_iff.mp hi
    rw [cell?_of_length_le hlen, cell?_of_length_le (by simpa [mapRefs] using hlen)]
    rfl
  | some i =>
    have hi' : (g.mapRefs f f').interfaces[k]? = some (i.mapRefs f f') := by simp [mapRefs, hi]
    rw [cell?, cell?, interface_of_getElem? hi, interface_of_getElem? hi', refAt?_mapRefs]

theorem cell?_resolved (g : Grammar) (slot : Slot) :
    g.resolved.cell? slot = (g.cell? slot).map (g.lookUp slot.place) := by
  obtain ⟨k, p⟩ := slot
  rw [resolved, cell?_mapRefs]
  cases p <;> rfl

theorem cell?_unlinked (g : Grammar) (slot : Slot) :
    g.unlinked.cell? slot = (g.cell? slot).map TypeRef.unlinked := by
  obtain ⟨k, p⟩ := slot
  rw [unlinked, cell?_mapRefs]
  cases p <;> rfl

theorem unlinked_mapRefs {f f' : TypeRef → TypeRef} (hf : ∀ ref, (f ref).unlinked = ref.unlinked)
    (hf' : ∀ ref, (f' ref).unlinked = ref.unlinked) (g : Grammar) :
    (g.mapRefs f f').unlinked = g.unlinked := by
  have hcomp : TypeRef.unlinked ∘ f = TypeRef.unlinked := funext hf
  have hcomp' : Attribute.mapRef .unlinked ∘ Attribute.mapRef f' = Attribute.mapRef .unlinked := by
    funext a
    have hrefs : TypeRef.unlinked ∘ f' = TypeRef.unlinked := funext hf'
    simp only [Function.comp_apply, Attribute.mapRef, TypeExpr.mapRef_mapRef, hrefs]
  simp only [unlinked, mapRefs, List.map_map, Grammar.mk.injEq, true_and, and_true]
  refine List.map_congr_left fun i _ => ?_
  simp only [Function.comp_apply, Interface.mapRefs, List.map_map, hcomp, hcomp']

@[simp] theorem unlinked_resolved (g : Grammar) : g.resolved.unlinked = g.unlinked := by
  apply unlinked_mapRefs <;> intro ref <;> rfl

@[simp] theorem unlinked_unlinked (g : Grammar) : g.unlinked.unlinked = g.unlinked := by
  apply unlinked_mapRefs <;> intro ref <;> rfl

theorem unlinked_setTarget (t : Target) (i : Interface) (p : Place) :
    (setTarget t i p).unlinked = i.unlinked := by
  have hname : (setTarget t i p).name = i.name := setTarget_name t i p
  match p with
  | .superType k =>
    have hkept : Function.Semiconj TypeRef.unlinked (TypeRef.withTarget t) id := fun ref => rfl
    have hsupers := (map_modify hkept i.superTypes k).trans (List.modify_id k _)
    simp only [Interface.unlinked, Interface.mapRefs, setTarget, Interface.mk.injEq, true_and,
      and_true]
    exact hsupers
  | .attribute k =>
    simp only [Interface.unlinked, Interface.mapRefs, setTarget, Interface.mk.injEq, true_and]
    refine (map_modify ?_ i.attributes k).trans (List.modify_id k _)
    intro a
    cases ha : a.type.typeRef? with
    | none => simp [ha]
    | some ref =>
      simp [ha, Attribute.mapRef, TypeExpr.mapRef, TypeExpr.typeRef?_withInnermost,
        TypeExpr.withInnermost_withInnermost, TypeRef.unlinked]

@[simp] theorem unlinked_fill (g : Grammar) (slot : Slot) (t : Target) :
    (g.fill slot t).unlinked = g.unlinked := by
  have hkept : Function.Semiconj Interface.unlinked (setTarget t · slot.place) id := fun i =>
    unlinked_setTarget t i slot.place
  have hinterfaces := (map_modify hkept g.interfaces slot.owner).trans (List.modify_id _ _)
  simp only [unlinked, mapRefs, fill, Grammar.mk.injEq, true_and, and_true]
  exact hinterfaces

/-- Linking changes targets only, whether it succeeds or stops. -/
theorem unlinked_link (g : Grammar) (slots : List Slot) :
    (g.link slots).1.unlinked = g.unlinked := by
  induction slots generalizing g with
  | nil => rfl
  | cons slot rest ih =>
    unfold link
    split
    next g' hs =>
      obtain ⟨ref, t, -, -, rfl⟩ := linkSlot_eq_ok.mp hs
      rw [ih, unlinked_fill]
    next => rfl

theorem unlinked_linked {g g' : Grammar} {slots : List Slot} (h : g.linked slots = .ok g') :
    g'.unlinked = g.unlinked := by
  have hl := unlinked_link g slots
  unfold linked at h
  split at h
  next g₁ hg =>
    cases h
    rwa [hg] at hl
  next => cases h

/-- Linking all cells of a grammar looks every name up. -/
theorem eq_resolved_of_linked {g g' : Grammar} {slots : List Slot} (h : g.linked slots = .ok g')
    (hall : ∀ slot, (g.cell? slot).isSome → slot ∈ slots) : g' = g.resolved := by
  refine eq_of_unlinked_of_cells ?_ fun slot => ?_
  · rw [unlinked_linked h, unlinked_resolved]
  · rw [(links_of_linked h).cells, cell?_resolved]
    by_cases hm : slot ∈ slots
    · rw [if_pos hm]
    · have hnone : g.cell? slot = none := by
        cases hc : g.cell? slot with
        | none => rfl
        | some ref => exact absurd (hall slot (by rw [hc]; rfl)) hm
      simp [hm, hnone]

theorem exists_linked_iff_link {g : Grammar} {slots : List Slot} :
    (∃ g', g.linked slots = .ok g') ↔ (g.link slots).2 = none := by
  unfold linked
  split
  next g' hg => simp [hg]
  next g' f hg => simp [hg]

/-- Linking succeeds when each slot has a cell, with a name that has a declaration. -/
theorem exists_linked_iff {g : Grammar} {slots : List Slot} :
    (∃ g', g.linked slots = .ok g') ↔ ∀ slot ∈ slots, ∃ ref, g.cell? slot = some ref ∧
      (g.resolve? ref.name slot.place).isSome := by
  rw [exists_linked_iff_link, link_fault, List.findSome?_eq_none_iff]
  simp only [slotFault?_eq_none]

theorem resolve?_superType_isSome {g : Grammar} {name : String} {k : Nat} :
    (g.resolve? name (.superType k)).isSome ↔ name ∈ g.interfaces.map (·.name) := by
  rw [← findInterface?_isSome, resolve?, Option.isSome_map]

theorem resolve?_attribute_isSome {g : Grammar} {name : String} {k : Nat} :
    (g.resolve? name (.attribute k)).isSome ↔ name ∈ g.declared := by
  simp only [resolve?, Option.isSome_or, Option.isSome_map, Bool.or_eq_true, findInterface?_isSome,
    findUnion?_isSome, declared, List.mem_append]

/-- A grammar is closed when the names in its cells have declarations. -/
theorem closed_iff_cells {g : Grammar} : g.Closed ↔ ∀ slot ref, g.cell? slot = some ref →
    (g.resolve? ref.name slot.place).isSome := by
  constructor
  · rintro hclosed ⟨k, j | j⟩ ref hc
    · obtain ⟨i, a, hi, ha, href⟩ := cell?_attribute_eq_some.mp hc
      exact resolve?_attribute_isSome.mpr
        (hclosed.types i (List.mem_of_getElem? hi) a (List.mem_of_getElem? ha) ref href)
    · obtain ⟨i, hi, href⟩ := cell?_superType_eq_some.mp hc
      exact resolve?_superType_isSome.mpr
        (hclosed.superTypes i (List.mem_of_getElem? hi) ref (List.mem_of_getElem? href))
  · intro hcells
    constructor
    · intro i hi ref href
      obtain ⟨k, hk⟩ := List.getElem?_of_mem hi
      obtain ⟨j, hj⟩ := List.getElem?_of_mem href
      exact resolve?_superType_isSome.mp
        (hcells ⟨k, .superType j⟩ ref (cell?_superType_eq_some.mpr ⟨i, hk, hj⟩))
    · intro i hi a ha ref href
      obtain ⟨k, hk⟩ := List.getElem?_of_mem hi
      obtain ⟨j, hj⟩ := List.getElem?_of_mem ha
      exact resolve?_attribute_isSome.mp
        (hcells ⟨k, .attribute j⟩ ref (cell?_attribute_eq_some.mpr ⟨i, a, hk, hj, href⟩))

end Grammar

namespace Outline.Recorded

variable {o : Outline}

/-- An outline without loose slots links when its grammar is closed. -/
theorem exists_linked_iff (ho : o.Recorded) :
    (∃ g, o.grammar.linked o.pending = .ok g) ↔ o.grammar.Closed := by
  rw [Grammar.exists_linked_iff, Grammar.closed_iff_cells]
  constructor
  · intro h slot ref hc
    obtain ⟨ref', hc', hs⟩ := h slot ((ho.cells slot).mpr (by rw [hc]; rfl))
    obtain rfl : ref' = ref := Option.some.inj (hc'.symm.trans hc)
    exact hs
  · intro h slot hm
    obtain ⟨ref, hc⟩ := Option.isSome_iff_exists.mp ((ho.cells slot).mp hm)
    exact ⟨ref, hc, h slot ref hc⟩

theorem eq_resolved {g : Grammar} (ho : o.Recorded) (h : o.grammar.linked o.pending = .ok g) :
    g = o.grammar.resolved :=
  Grammar.eq_resolved_of_linked h fun slot hs => (ho.cells slot).mpr hs

/-- The grammar of an outline has no targets. -/
theorem unlinked_grammar (ho : o.Recorded) : o.grammar.unlinked = o.grammar := by
  refine Grammar.eq_of_unlinked_of_cells ?_ fun slot => ?_
  · exact o.grammar.unlinked_unlinked
  · rw [Grammar.cell?_unlinked]
    cases hc : o.grammar.cell? slot with
    | none => rfl
    | some ref => simp [TypeRef.unlinked, ← ho.unlinked slot ref hc]

end Outline.Recorded
end ClassGrammar
