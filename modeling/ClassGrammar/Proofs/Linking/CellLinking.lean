import ClassGrammar.Grammar.Link
import ClassGrammar.Proofs.Linking.NameTable
import ClassGrammar.Proofs.General.Outcome
import ClassGrammar.Proofs.General.Lists

/-! Linking as a map on cells. A slot of a grammar names a cell, which holds a reference; linking
a list of slots gives the cells that it names their targets and leaves all else as it was. It stops
at the first slot that has no cell, or a name without a declaration. -/
namespace ClassGrammar

def TypeRef.withTarget (t : Target) (ref : TypeRef) : TypeRef := { ref with target := some t }

theorem TypeExpr.typeRef?_withInnermost (ref : TypeRef) (e : TypeExpr) :
    (e.withInnermost (.named ref)).typeRef? = some ref := by
  simp [TypeExpr.typeRef?]

namespace Grammar

/-- The reference at a slot, if the slot exists and its type has a name. -/
def cell? (g : Grammar) (slot : Slot) : Option TypeRef :=
  refAt? (g.interface slot.owner) slot.place

/-- The grammar with a target for the cell at a slot. -/
def fill (g : Grammar) (slot : Slot) (t : Target) : Grammar :=
  { g with interfaces := g.interfaces.modify slot.owner (setTarget t · slot.place) }

@[simp] theorem setTarget_name (t : Target) (i : Interface) (p : Place) :
    (setTarget t i p).name = i.name := by
  cases p <;> rfl

theorem refAt?_setTarget (t : Target) (i : Interface) (p q : Place) :
    refAt? (setTarget t i p) q =
      if q = p then (refAt? i q).map (·.withTarget t) else refAt? i q := by
  match p, q with
  | .attribute k, .attribute j =>
    simp only [refAt?, setTarget, List.getElem?_modify, Place.attribute.injEq]
    cases hj : i.attributes[j]? with
    | none => simp
    | some a =>
      by_cases hk : k = j
      · cases ha : a.type.typeRef? with
        | none => simp [hk, ha]
        | some ref => simp [hk, ha, TypeExpr.typeRef?_withInnermost, TypeRef.withTarget]
      · simp [hk, Ne.symm hk]
  | .attribute k, .superType j => simp [refAt?, setTarget]
  | .superType k, .attribute j => simp [refAt?, setTarget]
  | .superType k, .superType j =>
    simp only [refAt?, setTarget, List.getElem?_modify, Place.superType.injEq]
    by_cases hk : k = j
    · simp [hk, TypeRef.withTarget, Functor.map]
    · simp [hk, Ne.symm hk]

section Fill

variable (g : Grammar) (slot : Slot) (t : Target)

@[simp] theorem fill_unions : (g.fill slot t).unions = g.unions := rfl

theorem fill_getElem? (k : Nat) :
    (g.fill slot t).interfaces[k]? =
      (g.interfaces[k]?).map fun i => if slot.owner = k then setTarget t i slot.place else i := by
  simp only [fill, List.getElem?_modify]
  rfl

/-- Filling a cell keeps all declared names in their positions. -/
@[simp] theorem fill_names :
    (g.fill slot t).interfaces.map (·.name) = g.interfaces.map (·.name) := by
  have hkept : Function.Semiconj Interface.name (setTarget t · slot.place) id := fun i =>
    setTarget_name t i slot.place
  rw [fill, map_modify hkept, List.modify_id]

theorem fill_interface (k : Nat) :
    (g.fill slot t).interface k =
      if slot.owner = k ∧ k < g.interfaces.length then setTarget t (g.interface k) slot.place
      else g.interface k := by
  unfold Grammar.interface
  rw [List.getD_eq_getElem?_getD, List.getD_eq_getElem?_getD, fill_getElem?]
  by_cases hk : k < g.interfaces.length
  · by_cases ho : slot.owner = k <;> simp [hk, ho]
  · simp [hk]

theorem cell?_fill (other : Slot) :
    (g.fill slot t).cell? other =
      if other = slot then (g.cell? other).map (·.withTarget t) else g.cell? other := by
  obtain ⟨k, q⟩ := other
  obtain ⟨o, p⟩ := slot
  simp only [cell?, fill_interface, Slot.mk.injEq]
  by_cases hk : k < g.interfaces.length
  · by_cases ho : o = k
    · simp only [ho, hk, true_and, if_true]
      exact refAt?_setTarget t (g.interface k) p q
    · simp [ho, Ne.symm ho]
  · have hnone : refAt? (g.interface k) q = none := by
      have hd : g.interface k = default := by
        simp [Grammar.interface, List.getD_eq_getElem?_getD, hk]
      rw [hd]
      cases q <;> rfl
    simp [hk, hnone]

end Fill

/-- What a name stands for depends on the declared names only. -/
theorem resolve?_congr {g g' : Grammar}
    (hn : g'.interfaces.map (·.name) = g.interfaces.map (·.name)) (hu : g'.unions = g.unions)
    (name : String) (p : Place) : g'.resolve? name p = g.resolve? name p := by
  have hi : g'.interfaceTable = g.interfaceTable := congrArg nameTable hn
  have hu' : g'.unionTable = g.unionTable := by rw [unionTable, hu, unionTable]
  cases p <;> simp only [resolve?, findInterface?, findUnion?, hi, hu']

@[simp] theorem resolve?_fill (g : Grammar) (slot : Slot) (t : Target) (name : String)
    (p : Place) : (g.fill slot t).resolve? name p = g.resolve? name p :=
  resolve?_congr (fill_names g slot t) (fill_unions g slot t) name p

/-- One slot links when it has a cell and the name there has a declaration. -/
theorem linkSlot_eq_ok {g g' : Grammar} {slot : Slot} :
    g.linkSlot slot = .ok g' ↔ ∃ ref t, g.cell? slot = some ref ∧
      g.resolve? ref.name slot.place = some t ∧ g' = g.fill slot t := by
  unfold linkSlot
  cases hc : g.cell? slot with
  | none =>
    have hr : refAt? (g.interface slot.owner) slot.place = none := hc
    simp [hr]
  | some ref =>
    have hr : refAt? (g.interface slot.owner) slot.place = some ref := hc
    cases ht : g.resolve? ref.name slot.place with
    | none => simp [hr, ht]
    | some t => simp [hr, ht, fill, eq_comm]

/-- Where a reference stands depends on names only. -/
theorem site_congr {i i' : Interface} (hname : i.name = i'.name)
    (hattributes : i.attributes.map (·.name) = i'.attributes.map (·.name)) (p : Place) :
    site i p = site i' p := by
  unfold site
  match p with
  | .superType _ => rw [hname]
  | .attribute k =>
    have hk : i.attributes[k]?.map (·.name) = i'.attributes[k]?.map (·.name) := by
      rw [← List.getElem?_map, hattributes, List.getElem?_map]
    simp only [hname, hk]

theorem site_setTarget (t : Target) (i : Interface) (p q : Place) :
    site (setTarget t i p) q = site i q := by
  refine site_congr (setTarget_name t i p) ?_ q
  match p with
  | .superType _ => rfl
  | .attribute k =>
    refine (map_modify ?_ i.attributes k).trans (List.modify_id k _)
    intro a
    cases ha : a.type.typeRef? <;> simp [ha]

/-- The fault at which linking a slot stops. -/
def slotFault? (g : Grammar) (slot : Slot) : Option Fault :=
  match g.cell? slot with
  | none => some (.missingElement
      s!"named {slot.place.noun} #{slot.place.index} of interface {slot.owner}")
  | some ref => match g.resolve? ref.name slot.place with
    | none => some (.danglingReference ref.name (site (g.interface slot.owner) slot.place))
    | some _ => none

theorem linkSlot_eq_error {g : Grammar} {slot : Slot} {f : Fault} :
    g.linkSlot slot = .error f ↔ g.slotFault? slot = some f := by
  unfold linkSlot slotFault?
  cases hc : g.cell? slot with
  | none =>
    have hr : refAt? (g.interface slot.owner) slot.place = none := hc
    simp [hr]
  | some ref =>
    have hr : refAt? (g.interface slot.owner) slot.place = some ref := hc
    cases ht : g.resolve? ref.name slot.place <;> simp [hr, ht]

theorem slotFault?_eq_none {g : Grammar} {slot : Slot} : g.slotFault? slot = none ↔
    ∃ ref, g.cell? slot = some ref ∧ (g.resolve? ref.name slot.place).isSome := by
  unfold slotFault?
  cases g.cell? slot with
  | none => simp
  | some ref => cases ht : g.resolve? ref.name slot.place <;> simp [ht]

/-- Filling a cell moves no other slot and renames nothing, so all slots keep their faults. -/
theorem slotFault?_fill (g : Grammar) (slot : Slot) (t : Target) :
    (g.fill slot t).slotFault? = g.slotFault? := by
  funext other
  have hsite : site ((g.fill slot t).interface other.owner) other.place =
      site (g.interface other.owner) other.place := by
    rw [fill_interface]
    split
    · exact site_setTarget t _ _ _
    · rfl
  unfold slotFault?
  rw [cell?_fill, hsite]
  by_cases ho : other = slot
  · cases g.cell? other <;> simp [ho, TypeRef.withTarget]
  · simp [ho]

/-- Linking stops at the first slot with a fault. -/
theorem link_fault (g : Grammar) (slots : List Slot) :
    (g.link slots).2 = slots.findSome? g.slotFault? := by
  induction slots generalizing g with
  | nil => rfl
  | cons slot rest ih =>
    rw [link, List.findSome?_cons]
    cases hs : g.linkSlot slot with
    | error f => simp [linkSlot_eq_error.mp hs]
    | ok g' =>
      obtain ⟨ref, t, hc, ht, rfl⟩ := linkSlot_eq_ok.mp hs
      have hnone : g.slotFault? slot = none := slotFault?_eq_none.mpr ⟨ref, hc, by simp [ht]⟩
      simp [ih, hnone, slotFault?_fill]

/-- The reference with the declaration that the grammar has for its name. -/
def lookUp (g : Grammar) (p : Place) (ref : TypeRef) : TypeRef :=
  { ref with target := g.resolve? ref.name p }

@[simp] theorem lookUp_fill (g : Grammar) (slot : Slot) (t : Target) (p : Place) :
    (g.fill slot t).lookUp p = g.lookUp p := by
  funext ref
  simp [lookUp]

/-- `g'` is `g` with the cells at some slots linked, and all of them have a declaration. -/
structure Links (g : Grammar) (slots : List Slot) (g' : Grammar) : Prop where
  names : g'.interfaces.map (·.name) = g.interfaces.map (·.name)
  unions : g'.unions = g.unions
  cells : ∀ slot, g'.cell? slot =
    if slot ∈ slots then (g.cell? slot).map (g.lookUp slot.place) else g.cell? slot
  declared : ∀ slot ∈ slots, ∀ ref, g.cell? slot = some ref →
    (g.resolve? ref.name slot.place).isSome

namespace Links

theorem nil (g : Grammar) : g.Links [] g := ⟨rfl, rfl, by simp, by simp⟩

theorem resolve?_eq {g g' : Grammar} {slots : List Slot} (h : g.Links slots g')
    (name : String) (p : Place) : g'.resolve? name p = g.resolve? name p :=
  resolve?_congr h.names h.unions name p

/-- Linking one slot and then others links them all. A slot that occurs again gets the same
target again. -/
theorem cons {g g' : Grammar} {slot : Slot} {slots : List Slot} {ref : TypeRef} {t : Target}
    (hc : g.cell? slot = some ref) (ht : g.resolve? ref.name slot.place = some t)
    (h : (g.fill slot t).Links slots g') : g.Links (slot :: slots) g' where
  names := h.names.trans (fill_names g slot t)
  unions := h.unions
  cells other := by
    rw [h.cells, cell?_fill]
    by_cases ho : other = slot
    · subst ho
      by_cases hm : other ∈ slots <;> simp [hm, hc, ht, lookUp, TypeRef.withTarget]
    · by_cases hm : other ∈ slots <;> simp [hm, ho]
  declared := by
    intro other hm r hr
    by_cases ho : other = slot
    · subst ho
      obtain rfl : ref = r := Option.some.inj (hc.symm.trans hr)
      simp [ht]
    · have hr' : (g.fill slot t).cell? other = some r := by
        rw [cell?_fill, if_neg ho, hr]
      have hs := h.declared other (List.mem_of_ne_of_mem ho hm) r hr'
      rwa [resolve?_fill] at hs

end Links

theorem links_of_link {g g' : Grammar} {slots : List Slot} (h : g.link slots = (g', none)) :
    g.Links slots g' := by
  induction slots generalizing g with
  | nil =>
    obtain ⟨rfl, -⟩ := Prod.mk.inj h
    exact Links.nil g
  | cons slot rest ih =>
    simp only [link] at h
    split at h
    next g₁ hs =>
      obtain ⟨ref, t, hc, ht, rfl⟩ := linkSlot_eq_ok.mp hs
      exact Links.cons hc ht (ih h)
    next => simp at h

theorem linked_cons (g : Grammar) (slot : Slot) (rest : List Slot) :
    g.linked (slot :: rest) = (g.linkSlot slot >>= fun g => g.linked rest) := by
  unfold linked
  rw [link]
  cases g.linkSlot slot <;> rfl

/-- A grammar that comes out of linking is the given one with its slots linked. -/
theorem links_of_linked {g g' : Grammar} {slots : List Slot} (h : g.linked slots = .ok g') :
    g.Links slots g' := by
  unfold linked at h
  split at h
  next g₁ hg =>
    cases h
    exact links_of_link hg
  next => cases h

end Grammar
end ClassGrammar
