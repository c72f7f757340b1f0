import ClassGrammar.Proofs.Linking.PartialEffect

/-! Linking as an action of sets of slots. Neither the order of the slots nor how often one of them
stands in the list matters, and a list with two parts is linked part by part. -/
namespace ClassGrammar.Grammar

variable {g g' g₁ g₂ : Grammar} {slots part xs ys : List Slot}

/-- Goes on linking, unless the pass has stopped. -/
def thenLink (slots : List Slot) : Grammar × Option Fault → Grammar × Option Fault
  | (g, none) => g.link slots
  | (g, some f) => (g, some f)

theorem link_append (g : Grammar) (xs ys : List Slot) :
    g.link (xs ++ ys) = thenLink ys (g.link xs) := by
  induction xs generalizing g with
  | nil => rfl
  | cons slot xs ih =>
    rw [List.cons_append, link, link]
    cases g.linkSlot slot with
    | ok g' => exact ih g'
    | error f => rfl

theorem slotFault?_link (g : Grammar) (slots : List Slot) :
    (g.link slots).1.slotFault? = g.slotFault? := by
  induction slots generalizing g with
  | nil => rfl
  | cons slot slots ih =>
    rw [link]
    cases hs : g.linkSlot slot with
    | ok g' =>
      obtain ⟨ref, t, -, -, rfl⟩ := linkSlot_eq_ok.mp hs
      exact (ih (g.fill slot t)).trans (slotFault?_fill g slot t)
    | error f => rfl

theorem link_succeeds_iff : (g.link slots).2 = none ↔ ∀ slot ∈ slots, g.slotFault? slot = none := by
  rw [link_fault, List.findSome?_eq_none_iff]

theorem exists_link (h : ∀ slot ∈ slots, g.slotFault? slot = none) :
    ∃ g', g.link slots = (g', none) :=
  ⟨(g.link slots).1, Prod.ext rfl (link_succeeds_iff.mpr h)⟩

theorem link_stops {slot : Slot} {f : Fault} (h : g.slotFault? slot = some f)
    (slots : List Slot) : g.link (slot :: slots) = (g, some f) := by
  rw [link, linkSlot_eq_error.mpr h]

/-- Each cell is written from what was in it and from the declared names, which no step changes. So
the result depends on the set of slots only. -/
theorem link_unique (hmem : ∀ slot, slot ∈ xs ↔ slot ∈ ys) (hx : g.link xs = (g₁, none))
    (hy : g.link ys = (g₂, none)) : g₁ = g₂ := by
  have hu₁ := unlinked_link g xs
  have hu₂ := unlinked_link g ys
  rw [hx] at hu₁
  rw [hy] at hu₂
  apply eq_of_unlinked_of_cells (hu₁.trans hu₂.symm)
  intro slot
  rw [(links_of_link hx).cells, (links_of_link hy).cells]
  simp only [hmem slot]

/-- A linked cell gets the target that it has. -/
theorem link_part (h : g.link slots = (g', none)) (hpart : part ⊆ slots) :
    g'.link part = (g', none) := by
  have hlinks := links_of_link h
  have hfree : ∀ slot ∈ part, g'.slotFault? slot = none := by
    intro slot hm
    have hkeep := slotFault?_link g slots
    rw [h] at hkeep
    have hnone : (g.link slots).2 = none := by rw [h]
    rw [hkeep]
    exact link_succeeds_iff.mp hnone slot (hpart hm)
  obtain ⟨g₁, h₁⟩ := exists_link hfree
  have hunlinked := unlinked_link g' part
  rw [h₁] at hunlinked
  have hsame : g₁ = g' := by
    apply eq_of_unlinked_of_cells hunlinked
    intro slot
    rw [(links_of_link h₁).cells]
    by_cases hm : slot ∈ part
    · rw [if_pos hm, hlinks.cells, if_pos (hpart hm), Option.map_map]
      congr 1
      funext ref
      show g'.lookUp slot.place (g.lookUp slot.place ref) = g.lookUp slot.place ref
      simp only [lookUp, hlinks.resolve?_eq]
    · rw [if_neg hm]
  rw [h₁, hsame]

/-- A pass over the same list ends as the first one did, also when that one stopped. -/
theorem link_again (g : Grammar) (slots : List Slot) :
    (g.link slots).1.link slots = g.link slots := by
  obtain ⟨done, rest, hslots, hdone, hend⟩ := exists_link_append g slots
  have hagain : (g.link slots).1.link (done ++ rest) = (g.link slots).1.link rest := by
    rw [link_append, link_part hdone (List.Subset.refl done)]
    rfl
  rw [← hslots] at hagain
  rw [hagain]
  rcases hend with ⟨rfl, hnone⟩ | ⟨slot, after, f, rfl, hf, hstop⟩
  · exact Prod.ext rfl hnone.symm
  · have hf' : (g.link slots).1.slotFault? slot = some f := by rw [slotFault?_link, hf]
    rw [link_stops hf' after]
    exact Prod.ext rfl hstop.symm

/-- Lists with the same slots link to the same grammar or both stop. A grammar that came out of
linking stays as it is when some of the slots, or after a stop all of them, are linked again; and
two lists can be linked one after the other. -/
theorem link_independent (g : Grammar) (xs ys : List Slot) :
    ((∀ slot, slot ∈ xs ↔ slot ∈ ys) →
      ((g.link xs).2 = none ↔ (g.link ys).2 = none) ∧
      ((g.link xs).2 = none → g.link ys = g.link xs)) ∧
    ((g.link xs).2 = none → ∀ part ⊆ xs, (g.link xs).1.link part = ((g.link xs).1, none)) ∧
    (g.link xs).1.link xs = g.link xs ∧
    g.link (xs ++ ys) = thenLink ys (g.link xs) := by
  have hpair {zs : List Slot} (hz : (g.link zs).2 = none) : g.link zs = ((g.link zs).1, none) :=
    Prod.ext rfl hz
  refine ⟨fun hmem => ?_, fun hx part hpart => link_part (hpair hx) hpart, link_again g xs,
    link_append g xs ys⟩
  have hiff : (g.link xs).2 = none ↔ (g.link ys).2 = none := by
    rw [link_succeeds_iff, link_succeeds_iff]
    simp only [hmem]
  refine ⟨hiff, fun hx => ?_⟩
  have hy := hiff.mp hx
  exact Prod.ext (link_unique hmem (hpair hx) (hpair hy)).symm (hy.trans hx.symm)

/-- A grammar with a super type, a reference to an interface and one to a union. -/
def zoo : Grammar where
  name := "Zoo"
  entryRule := "Model"
  interfaces := [
    ⟨"Cat", [⟨"Animal", none⟩], [
      ⟨"moods", false, .array (.simple (.named ⟨"Mood", none⟩))⟩,
      ⟨"prey", true, .reference (.named ⟨"Animal", none⟩)⟩]⟩,
    ⟨"Animal", [], []⟩]
  unions := [⟨"Mood", ["calm", "wild"]⟩]

theorem zoo_link_independent :
    let xs : List Slot := [⟨0, .superType 0⟩, ⟨0, .attribute 0⟩, ⟨0, .attribute 1⟩]
    let ys : List Slot := [⟨0, .attribute 1⟩, ⟨0, .superType 0⟩, ⟨0, .attribute 1⟩,
      ⟨0, .attribute 0⟩, ⟨0, .superType 0⟩]
    (∀ slot, slot ∈ xs ↔ slot ∈ ys) ∧ (zoo.link xs).2 = none ∧ zoo.link ys = zoo.link xs ∧
      (zoo.link xs).1.isLinked = true ∧
      (zoo.link xs).1.link [⟨0, .attribute 1⟩, ⟨0, .attribute 1⟩] = ((zoo.link xs).1, none) := by
  intro xs ys
  have hmem : ∀ slot, slot ∈ xs ↔ slot ∈ ys := by
    intro slot
    simp only [xs, ys, List.mem_cons, List.not_mem_nil, or_false]
    tauto
  have hx : (zoo.link xs).2 = none := by decide +kernel
  obtain ⟨hsame, hpart, -, -⟩ := link_independent zoo xs ys
  exact ⟨hmem, hx, (hsame hmem).2 hx, by decide +kernel, hpart hx _ (by simp [xs])⟩

end ClassGrammar.Grammar
