import ClassGrammar.Proofs.Models.LargerIndex
import ClassGrammar.Proofs.Models.ReferenceKeys

/-! Reading further top-level nodes. When they share no identifier with those before, the elements
that are there stay as they are, and what is added comes after them. -/
namespace ClassGrammar

namespace Node

theorem preorderAll_append (ns ms : List Node) :
    preorderAll (ns ++ ms) = preorderAll ns ++ preorderAll ms := by
  simp only [preorderAll_eq_flatMap, List.flatMap_append]

end Node

/-- An index resolves what it resolved before when nodes with other identifiers are added. -/
theorem IdIndex.within_append {first second : List Node}
    (h : ∀ id ∈ Node.ids second, id ∉ Node.ids first) :
    (ofRoots first).Within (ofRoots (first ++ second)) := by
  intro id n hn
  have hid : id ∈ Node.ids first :=
    Node.mem_ids (mem_of_get?_ofRoots hn) (get?_mem hn).2
  have hnone : (Node.preorderAll second).reverse.find? (·.id? == some id) = none := by
    rw [List.find?_eq_none]
    intro m hm hmid
    have hmem : id ∈ Node.ids second :=
      Node.mem_ids (List.mem_reverse.mp hm) (by simpa using hmid)
    exact h id hmem hid
  rw [get?_ofRoots] at hn ⊢
  rw [Node.preorderAll_append, List.reverse_append, List.find?_append, hnone, Option.none_or, hn]

namespace Model

/-- Whether a model begins with the elements and the top-level elements of another one. -/
structure Begins (m m' : Model) : Prop where
  elements : m.elements <+: m'.elements
  roots : m.roots <+: m'.roots

/-- Whether all handles in a model are those of its elements. -/
structure Scoped (m : Model) : Prop where
  roots : ∀ h ∈ m.roots, h < m.size
  types : ∀ e ∈ m.elements, ∀ p ∈ e.properties, p.type < m.size
  targets : ∀ e ∈ m.elements, ∀ g ∈ e.generalizations, ∀ t ∈ g.targets, t < m.size

theorem scoped_of_ofNodes {roots : List Node} {m : Model}
    (h : Model.ofNodes (.ofRoots roots) roots = .ok m) : m.Scoped := by
  have hrefers := Draft.refers_of_ofNodes h
  obtain ⟨d, rfl, placed, srcs, hr, -⟩ := Draft.rooted_of_ofNodes h
  refine ⟨fun k hk => ?_, fun e he p hp => ?_, fun e he g hg t ht => ?_⟩
  · rw [hr.handles] at hk
    obtain ⟨p, hp, rfl⟩ := List.mem_map.mp hk
    obtain ⟨src, hsrc, -⟩ := hr.tops p hp
    exact hr.traced.lt_size hsrc
  · obtain ⟨k, hk⟩ := List.getElem?_of_mem he
    obtain ⟨-, -, c, -, htypes⟩ := (hrefers k e hk).types p hp
    obtain ⟨key, -, hb⟩ := htypes.bears
    exact hb.lt_size
  · obtain ⟨k, hk⟩ := List.getElem?_of_mem he
    obtain ⟨c, hgeneralizes⟩ := (hrefers k e hk).targets g hg t ht
    obtain ⟨key, -, hb⟩ := hgeneralizes.bears
    exact hb.lt_size

end Model

namespace Draft

/-- Whether a draft has only added to a model: all that it may still fill came after it. -/
structure Above (base : Model) (d : Draft) : Prop where
  bounded : d.model.Bounded
  begins : base.Begins d.model
  queued : ∀ p ∈ d.queue, base.size ≤ p.1

namespace Above

variable {base : Model} {ix : IdIndex} {d d' : Draft}

theorem size_le (ha : d.Above base) : base.size ≤ d.model.size := ha.begins.elements.length_le

theorem adds {src : Source} (ha : d.Above base) (hadds : d.Adds src d') : d'.Above base where
  bounded := hadds.bounded ha.bounded
  begins := by
    obtain ⟨e, -, he⟩ := hadds.element
    refine ⟨?_, hadds.roots ▸ ha.begins.roots⟩
    rw [he]
    exact ha.begins.elements.trans (List.prefix_append _ _)
  queued p hp := by
    rw [hadds.queue, List.mem_append] at hp
    rcases hp with hp | hp
    · exact ha.queued p hp
    · cases src with
      | node n =>
        cases hclass : n.isClass <;> simp [Source.openings, hclass] at hp
        obtain rfl := hp
        exact ha.size_le
      | library _ _ => simp [Source.openings] at hp

theorem grows {P : Source → Prop} (ha : d.Above base) (hg : d.Grows P d') : d'.Above base := by
  induction hg with
  | refl => exact ha
  | tail _ hs ih =>
    obtain ⟨src, -, -, hadds⟩ := hs
    exact ih.adds hadds

theorem place {position : Nat} {n : Node} {h : Handle} (ha : d.Above base)
    (hr : rootFor ix d position n = .ok (d', h)) :
    { d' with model := d'.model.addRoot h }.Above base := by
  have hd' : d'.Above base := by
    cases rootFor_places ha.bounded hr with
    | known _ _ => exact ha
    | type _ _ adds => exact ha.adds adds
    | association _ _ ends adds _ _ => exact (ha.grows ends).adds adds
  refine ⟨hd'.bounded, ⟨hd'.begins.elements, ?_⟩, hd'.queued⟩
  exact hd'.begins.roots.trans (List.prefix_append _ _)

/-- A class that leaves the queue came after the model, so filling it leaves the model alone. -/
theorem fill {h : Handle} {n : Node} {rest : List (Handle × Node)} (ha : d.Above base)
    (hq : d.queue = (h, n) :: rest)
    (hf : fillMembers ix { d with queue := rest } h n = .ok d') : d'.Above base := by
  have hlow : base.size ≤ h := ha.queued (h, n) (by rw [hq]; exact List.mem_cons_self)
  have hopen : { d with queue := rest }.Above base :=
    ⟨ha.bounded, ha.begins, fun p hp => ha.queued p (hq ▸ List.mem_cons_of_mem _ hp)⟩
  obtain ⟨d₁, attributes, gs, hg, -, -, rfl⟩ := fillMembers_spec hopen.bounded hf
  have ha₁ := hopen.grows hg
  refine ⟨fun key a hl => ?_, ⟨?_, ha₁.begins.roots⟩, ha₁.queued⟩
  · simpa using ha₁.bounded key a hl
  · rw [List.prefix_iff_getElem?]
    intro k hk
    have hne : h ≠ k := Nat.ne_of_gt (Nat.lt_of_lt_of_le hk hlow)
    simp [Model.getElem?_setMembers, List.prefix_iff_getElem?.mp ha₁.begins.elements k hk, hne]

end Above
end Draft

namespace Model

/-- Further top-level nodes with identifiers of their own only add to the model. -/
theorem begins_of_ofNodes {first second : List Node} {m m' : Model}
    (h : ∀ id ∈ Node.ids second, id ∉ Node.ids first)
    (hm : Model.ofNodes (.ofRoots first) first = .ok m)
    (hm' : Model.ofNodes (.ofRoots (first ++ second)) (first ++ second) = .ok m') :
    m.Begins m' := by
  obtain ⟨d, hd, rfl⟩ := ofNodes_eq_ok.mp hm
  obtain ⟨d', hd', rfl⟩ := ofNodes_eq_ok.mp hm'
  obtain ⟨placed, srcs, hr, -⟩ := (Draft.Rooted.start first).run (List.Subset.refl first) hd
  -- The run over the first nodes is the same with the index of all nodes.
  have hsame := Draft.addRoots_mono (IdIndex.within_append h) hd
  rw [Draft.addRoots_append, hsame] at hd'
  have hstart : d.Above d.model :=
    ⟨hr.traced.bounded, ⟨List.prefix_refl _, List.prefix_refl _⟩, by simp [hr.drained]⟩
  obtain ⟨habove, -⟩ := Draft.addRoots_run (I := fun _ d' => d'.Above d.model)
    (fun _ _ _ _ _ _ ha _ h₁ => ha.place h₁) (fun _ _ _ _ _ _ ha hq hf => ha.fill hq hf)
    [] hstart hr.drained (List.Subset.refl second) hd'
  exact habove.begins

end Model
end ClassGrammar
