import ClassGrammar.Proofs.Models.ReferenceKeys

/-! The handles in a class model. Whatever the identifiers of the nodes are, each handle is that of
an element, and each end of an association names the association that it belongs to. -/
namespace ClassGrammar

/-- The association that the properties of an element belong to, which only ends have. -/
def Form.owner? (h : Handle) : Form → Option Handle
  | association _ _ _ => some h
  | _ => none

/-- Whether the members of the element at a handle use handles below a bound, and its properties
name their association. -/
structure Element.InRange (bound : Nat) (h : Handle) (e : Element) : Prop where
  types : ∀ p ∈ e.properties, p.type < bound
  owner : ∀ p ∈ e.properties, p.association = e.form.owner? h
  targets : ∀ g ∈ e.generalizations, ∀ t ∈ g.targets, t < bound

/-- Whether all handles in a model are those of elements. -/
structure Model.InRange (m : Model) : Prop where
  roots : ∀ h ∈ m.roots, h < m.size
  table : m.Bounded
  elements : ∀ (h : Handle) (e : Element), m.elements[h]? = some e → e.InRange m.size h

/-- Whether all handles in a model and in the queue are those of elements. -/
structure Draft.InRange (d : Draft) : Prop where
  model : d.model.InRange
  queue : ∀ p ∈ d.queue, p.1 < d.model.size

namespace Element

variable {bound bound' : Nat} {h : Handle} {e : Element}

theorem InRange.mono (he : e.InRange bound h) (hle : bound ≤ bound') : e.InRange bound' h where
  types p hp := Nat.lt_of_lt_of_le (he.types p hp) hle
  owner := he.owner
  targets g hg t ht := Nat.lt_of_lt_of_le (he.targets g hg t ht) hle

theorem Bare.inRange (hb : e.Bare) : e.InRange bound h where
  types p hp := by simp [hb.1] at hp
  owner p hp := by simp [hb.1] at hp
  targets g hg := by simp [hb.2] at hg

/-- Members as nodes state them use handles in range. -/
theorem InRange.of_states {m : Model}
    (properties : ∀ p ∈ e.properties, ∃ c : Node, c.StatesProperty m (e.form.owner? h) p)
    (generals : ∀ g ∈ e.generalizations, ∃ c : Node, c.StatesGeneralization m g) :
    e.InRange m.size h where
  types p hp := by
    obtain ⟨c, hc⟩ := properties p hp
    exact hc.bound
  owner p hp := by
    obtain ⟨c, hc⟩ := properties p hp
    exact hc.association
  targets g hg t ht := by
    obtain ⟨c, hc⟩ := generals g hg
    obtain ⟨key, t', -, -, hlt, htargets⟩ := hc.target
    rw [htargets, List.mem_singleton] at ht
    exact ht ▸ hlt

end Element

namespace Node

variable {m : Model} {h : Handle} {n : Node} {e : Element}

theorem StatesMembers.inRange (hs : n.StatesMembers m h e) : e.InRange m.size h := by
  refine .of_states (fun p hp => ?_) fun g hg => ?_
  · unfold Element.properties at hp
    cases hf : e.form <;> simp only [StatesMembers, hf] at hs hp
    case classifier =>
      obtain ⟨c, -, hc⟩ := exists_of_forall₂ hs.1.flip hp
      exact ⟨c, hc⟩
    case association =>
      obtain ⟨c, -, hc⟩ := exists_of_forall₂ hs.1.flip hp
      exact ⟨c, hc⟩
    all_goals cases hp
  · unfold Element.generalizations at hg
    cases hf : e.form <;> simp only [StatesMembers, hf] at hs hg
    case classifier =>
      obtain ⟨c, -, hc⟩ := exists_of_forall₂ hs.2.flip hg
      exact ⟨c, hc⟩
    all_goals cases hg

end Node

theorem Element.InRange.withMembers {m : Model} {h : Handle} {n : Node} {e : Element}
    {attributes : List Property} {gs : List Generalization} (he : e.InRange m.size h)
    (has : List.Forall₂ (Node.StatesProperty m none) (n.children "ownedAttribute") attributes)
    (hgs : List.Forall₂ (Node.StatesGeneralization m) (n.children "generalization") gs) :
    (e.withMembers attributes gs).InRange m.size h := by
  cases hf : e.form with
  | classifier isInterface _ _ =>
    refine Node.StatesMembers.inRange (n := n) ?_
    simp only [Node.StatesMembers, Element.withMembers, hf]
    exact ⟨has, hgs⟩
  | _ => simpa only [Element.withMembers, hf] using he

namespace Draft

variable {d d' : Draft}

theorem InRange.start : ({} : Draft).InRange where
  model := {
    roots := fun _ hh => by cases hh
    table := fun _ _ hl => by cases hl
    elements := fun _ _ he => by cases he }
  queue := fun _ hp => by cases hp

namespace InRange

theorem adds {src : Source} (hd : d.InRange) (ha : d.Adds src d')
    (hnew : ∀ e, d'.model.elements[d.model.size]? = some e →
      e.InRange d'.model.size d.model.size) : d'.InRange where
  model := {
    roots := fun h hh => by
      rw [ha.roots] at hh
      rw [ha.size]
      exact Nat.lt_succ_of_lt (hd.model.roots h hh)
    table := ha.bounded hd.model.table
    elements := fun h e he => by
      rcases Nat.lt_or_ge h d.model.size with hlt | hge
      · rw [ha.getElem? hlt] at he
        exact (hd.model.elements h e he).mono (ha.size ▸ Nat.le_succ _)
      · have hlt : h < d'.model.size := (List.getElem?_eq_some_iff.mp he).1
        rw [ha.size] at hlt
        obtain rfl : h = d.model.size := Nat.le_antisymm (Nat.le_of_lt_succ hlt) hge
        exact hnew e he }
  queue p hp := by
    rw [ha.queue] at hp
    rw [ha.size]
    rcases List.mem_append.mp hp with hp | hp
    · exact Nat.lt_succ_of_lt (hd.queue p hp)
    · cases src with
      | node n =>
        simp only [Source.openings] at hp
        split at hp
        · rw [List.mem_singleton.mp hp]
          exact Nat.lt_succ_self _
        · cases hp
      | library _ _ => cases hp

theorem grows {P : Source → Prop} (hd : d.InRange) (hg : d.Grows P d')
    (hp : ∀ src, P src → src.IsType) : d'.InRange := by
  induction hg with
  | refl => exact hd
  | tail _ hs ih =>
    obtain ⟨src, hsrc, -, ha⟩ := hs
    exact ih.adds ha fun e he => (ha.bare (hp src hsrc) e he).inRange

theorem addRoot {h : Handle} (hd : d.InRange) (hh : h < d.model.size) :
    { d with model := d.model.addRoot h }.InRange where
  model := {
    roots := fun k hk => by
      rcases List.mem_append.mp hk with hk | hk
      · exact hd.model.roots k hk
      · exact List.mem_singleton.mp hk ▸ hh
    table := hd.model.table
    elements := hd.model.elements }
  queue := hd.queue

/-- The handle of a class leaves the queue. -/
theorem pop {h : Handle} {n : Node} {rest : List (Handle × Node)} (hd : d.InRange)
    (hq : d.queue = (h, n) :: rest) : { d with queue := rest }.InRange :=
  ⟨hd.model, fun p hp => hd.queue p (hq ▸ List.mem_cons_of_mem _ hp)⟩

theorem fill {ix : IdIndex} {h : Handle} {n : Node} (hd : d.InRange)
    (hf : fillMembers ix d h n = .ok d') : d'.InRange := by
  obtain ⟨d₁, attributes, gs, hg, has, hgs, rfl⟩ := fillMembers_spec hd.model.table hf
  have hd₁ := hd.grows hg fun _ hsrc => hsrc.isType
  refine ⟨⟨fun k hk => ?_, ?_, fun k e he => ?_⟩, fun p hp => ?_⟩
  · rw [Model.size_setMembers]
    exact hd₁.model.roots k hk
  · exact fun key k hk => (Model.size_setMembers ..).symm ▸ hd₁.model.table key k hk
  · rw [Model.getElem?_setMembers] at he
    obtain ⟨e₀, he₀, rfl⟩ := Option.map_eq_some_iff.mp he
    rw [Model.size_setMembers]
    split
    · exact (hd₁.model.elements k e₀ he₀).withMembers has hgs
    · exact hd₁.model.elements k e₀ he₀
  · rw [Model.size_setMembers]
    exact hd₁.queue p hp

/-- The handle of a top-level node is that of an element. -/
theorem place {ix : IdIndex} {position : Nat} {n : Node} {h : Handle} (hd : d.InRange)
    (hr : rootFor ix d position n = .ok (d', h)) : d'.InRange ∧ h < d'.model.size := by
  cases rootFor_places hd.model.table hr with
  | known _ found => exact ⟨hd, hd.model.table _ _ found⟩
  | type isType _ adds =>
    refine ⟨hd.adds adds fun e he => (adds.bare isType e he).inRange, ?_⟩
    rw [adds.size]
    exact Nat.lt_succ_self _
  | @association d₁ _ e kind lacks ends adds element states =>
    have hd₁ := hd.grows ends fun src ⟨c, _, htyped⟩ => htyped.isType
    refine ⟨hd₁.adds adds fun e' he' => ?_, ?_⟩
    · obtain rfl : e = e' := Option.some.inj (element.symm.trans he')
      exact states.inRange.mono (adds.size ▸ Nat.le_succ _)
    · rw [adds.size]
      exact Nat.lt_succ_self _

theorem drain {ix : IdIndex} (hd : d.InRange) (h : Draft.drain ix d = .ok d') : d'.InRange :=
  (drain_run (I := InRange) (fun _ _ _ _ _ hd hq hf => (hd.pop hq).fill hf) hd h).1

end InRange
end Draft

/-- An association that a property names is an element. -/
theorem Model.InRange.association_lt {m : Model} {e : Element} {p : Property} {a : Handle}
    (hm : m.InRange) (he : e ∈ m.elements) (hp : p ∈ e.properties) (ha : p.association = some a) :
    a < m.size := by
  obtain ⟨h, he⟩ := List.getElem?_of_mem he
  have howner := (hm.elements h e he).owner p hp
  rw [ha] at howner
  have hlt : h < m.size := (List.getElem?_eq_some_iff.mp he).1
  unfold Form.owner? at howner
  split at howner
  · cases howner
    exact hlt
  · cases howner

/-- All handles in a model are those of elements. -/
theorem Model.inRange_of_ofNodes {ix : IdIndex} {roots : List Node} {m : Model}
    (h : ofNodes ix roots = .ok m) : m.InRange := by
  obtain ⟨d, hd, rfl⟩ := ofNodes_eq_ok.mp h
  have hrun := Draft.addRoots_run (I := fun _ d => d.InRange)
    (fun _ d position n h d₁ hd _ hr => by
      obtain ⟨hd₁, hh⟩ := hd.place hr
      exact hd₁.addRoot hh)
    (fun _ _ _ _ _ _ hd hq hf => (hd.pop hq).fill hf)
    [] Draft.InRange.start rfl (List.Subset.refl roots) hd
  exact hrun.1.model

end ClassGrammar
