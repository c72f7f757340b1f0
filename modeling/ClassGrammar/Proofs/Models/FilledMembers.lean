import ClassGrammar.Proofs.Models.TracedDrafts

/-! The sources of a draft along a run. The members of a class are filled when it leaves the queue,
and the queue is empty after each top-level node. -/
namespace ClassGrammar

namespace Element

variable (e : Element) (attributes : List Property) (generalizations : List Generalization)

@[simp] theorem id_withMembers : (e.withMembers attributes generalizations).id = e.id := by
  unfold withMembers
  split <;> rfl

@[simp] theorem name_withMembers : (e.withMembers attributes generalizations).name = e.name := by
  unfold withMembers
  split <;> rfl

@[simp] theorem visibility_withMembers :
    (e.withMembers attributes generalizations).visibility = e.visibility := by
  unfold withMembers
  split <;> rfl

@[simp] theorem kindText_withMembers :
    (e.withMembers attributes generalizations).form.kindText = e.form.kindText := by
  unfold withMembers
  split
  next isInterface _ _ hf =>
    rw [hf]
    cases isInterface <;> rfl
  next => rfl

theorem literals_of_withMembers {ls : List Literal}
    (h : (e.withMembers attributes generalizations).form = .enumeration ls) :
    e.form = .enumeration ls := by
  unfold withMembers at h
  split at h
  · cases h
  · exact h

end Element

namespace Node.Declares

variable {n : Node} {e : Element} {attributes : List Property}
  {generalizations : List Generalization}

theorem withMembers (h : n.Declares e) :
    n.Declares (e.withMembers attributes generalizations) where
  kind := by simpa using h.kind
  id := by simpa using h.id
  name := by simpa using h.name
  visibility := by simpa using h.visibility
  literals ls hls := h.literals ls (e.literals_of_withMembers _ _ hls)

theorem statesMembers_withMembers {m : Model} {a : Handle} (h : n.Declares e)
    (hc : n.isClass = true)
    (has : List.Forall₂ (StatesProperty m none) (n.children "ownedAttribute") attributes)
    (hgs : List.Forall₂ (StatesGeneralization m) (n.children "generalization") generalizations) :
    n.StatesMembers m a (e.withMembers attributes generalizations) := by
  obtain ⟨isInterface, _, _, hf⟩ := h.classifier hc
  simp only [StatesMembers, Element.withMembers, hf]
  exact ⟨has, hgs⟩

end Node.Declares

namespace Model

theorem getElem?_setMembers (m : Model) (h k : Handle) (attributes : List Property)
    (generalizations : List Generalization) :
    (m.setMembers h attributes generalizations).elements[k]? =
      m.elements[k]?.map fun e =>
        if h = k then e.withMembers attributes generalizations else e :=
  List.getElem?_modify _ h m.elements k

@[simp] theorem size_setMembers (m : Model) (h : Handle) (attributes : List Property)
    (generalizations : List Generalization) :
    (m.setMembers h attributes generalizations).size = m.size := by
  simp [size, setMembers]

theorem keeps_setMembers (m : Model) (h : Handle) (attributes : List Property)
    (generalizations : List Generalization) :
    m.Keeps (m.setMembers h attributes generalizations) where
  size := by simp
  lookup _ _ ha := ha
  name k _ := by
    simp only [element, List.getD_eq_getElem?_getD, getElem?_setMembers]
    cases m.elements[k]? with
    | none => rfl
    | some e => by_cases hk : h = k <;> simp [hk]

end Model

/-- Whether a source has the place of a node that comes after the nodes of a class model. When the
model has an element for the identifier of the node already, the place is that of this element;
otherwise the node has it. -/
def Source.TakesPlace (src : Source) (m : Model) (n : Node) : Prop :=
  match n.id?.bind m.lookup with
  | some h => src.Heads (m.element h)
  | none => src = .node n

namespace Draft
namespace Traced

variable {roots : List Node} {placed : List (Node × Handle)} {current : List Handle}
  {srcs : List Source} {d d' : Draft}

/-- The class that leaves the queue is the current one. -/
theorem pop {h : Handle} {n : Node} {rest : List (Handle × Node)}
    (ht : d.Traced roots placed [] srcs) (hq : d.queue = (h, n) :: rest) :
    { d with queue := rest }.Traced roots placed [h] srcs where
  size := ht.size
  heads := ht.heads
  keyed := ht.keyed
  queued a m hm := ht.queued a m (hq ▸ List.mem_cons_of_mem _ hm)
  known := ht.known
  settled hap := by
    refine ⟨(ht.settled hap).registered, fun a m e hsrc he => ?_⟩
    rcases (ht.settled hap).filled a m e hsrc he with hcur | hqueue | hmembers
    · cases hcur
    · rw [hq, List.map_cons] at hqueue
      rcases List.mem_cons.mp hqueue with rfl | hqueue
      · exact .inl List.mem_cons_self
      · exact .inr (.inl hqueue)
    · exact .inr (.inr hmembers)

theorem setMembers {h : Handle} {n : Node} {attributes : List Property}
    {generalizations : List Generalization} (ht : d.Traced roots placed [h] srcs)
    (hsrc : srcs[h]? = some (.node n)) (hc : n.isClass = true)
    (has : List.Forall₂ (Node.StatesProperty d.model none) (n.children "ownedAttribute") attributes)
    (hgs : List.Forall₂ (Node.StatesGeneralization d.model) (n.children "generalization")
      generalizations) :
    { d with model := d.model.setMembers h attributes generalizations }.Traced
      roots placed [] srcs where
  size := by rw [ht.size, Model.size_setMembers]
  heads k src e hk he := by
    rw [Model.getElem?_setMembers] at he
    obtain ⟨e₀, he₀, rfl⟩ := Option.map_eq_some_iff.mp he
    have hh := ht.heads k src e₀ hk he₀
    split
    next heq =>
      obtain rfl : Source.node n = src := Option.some.inj (hsrc.symm.trans (heq ▸ hk))
      exact Node.Declares.withMembers hh
    next => exact hh
  keyed := ht.keyed
  queued := ht.queued
  known := ht.known
  settled hap := by
    have hkeeps := d.model.keeps_setMembers h attributes generalizations
    refine ⟨(ht.settled hap).registered, fun k m e hk he => ?_⟩
    rw [Model.getElem?_setMembers] at he
    obtain ⟨e₀, he₀, rfl⟩ := Option.map_eq_some_iff.mp he
    by_cases heq : h = k
    · subst heq
      obtain rfl : n = m := by cases hsrc.symm.trans hk; rfl
      have hh : n.Declares e₀ := ht.heads h (.node n) e₀ hk he₀
      rw [if_pos rfl]
      exact .inr (.inr ((hh.statesMembers_withMembers hc has hgs).keeps hkeeps))
    · rw [if_neg heq]
      rcases (ht.settled hap).filled k m e₀ hk he₀ with hcur | hqueue | hmembers
      · exact absurd (List.mem_singleton.mp hcur).symm heq
      · exact .inr (.inl hqueue)
      · exact .inr (.inr (hmembers.keeps hkeeps))

/-- Filling the class at the front of the queue settles it. The draft may grow by the way. -/
theorem fill {h : Handle} {n : Node} {rest : List (Handle × Node)}
    (ht : d.Traced roots placed [] srcs) (hq : d.queue = (h, n) :: rest)
    (hd : fillMembers (.ofRoots roots) { d with queue := rest } h n = .ok d') :
    ∃ more, d'.Traced roots placed [] (srcs ++ more) ∧ d'.model.roots = d.model.roots := by
  obtain ⟨hsrc, hc⟩ := ht.queued h n (by rw [hq]; exact List.mem_cons_self)
  have hopen := ht.pop hq
  obtain ⟨d₁, attributes, generalizations, hg, has, hgs, rfl⟩ := fillMembers_spec hopen.bounded hd
  have hn := (ht.known h _ hsrc).reached.mem
  -- The members bring in further elements before the class itself changes.
  obtain ⟨more, ht₁⟩ := hopen.grows (hg.mono fun _ hsrc => hsrc.cited hn)
  exact ⟨more, ht₁.setMembers (getElem?_append_of_eq_some hsrc) hc has hgs, hg.roots⟩

end Traced

/-- Draining keeps what filling a class keeps, and leaves the queue empty. -/
theorem drain_run {ix : IdIndex} {I : Draft → Prop}
    (fill : ∀ d h n rest d', I d → d.queue = (h, n) :: rest →
      fillMembers ix { d with queue := rest } h n = .ok d' → I d')
    {d d' : Draft} (hI : I d) (hd : drain ix d = .ok d') : I d' ∧ d'.queue = [] := by
  fun_induction drain ix d with
  | case1 d hq =>
    cases hd
    exact ⟨hI, hq⟩
  | case2 d h n rest hq f hf => cases hd
  | case3 d h n rest hq d₁ hf ih => exact ih (fill d h n rest d₁ hI hq hf) hd

/-- Reading two lists of top-level nodes one after the other. -/
theorem addRoots_append {ix : IdIndex} {d : Draft} {position : Nat} {ns ms : List Node} :
    addRoots ix d position (ns ++ ms) = (do
      let d ← addRoots ix d position ns
      addRoots ix d (position + ns.length) ms) := by
  induction ns generalizing d position with
  | nil => rfl
  | cons n rest ih =>
    have hlength : position + (n :: rest).length = position + 1 + rest.length := by
      rw [List.length_cons]
      omega
    simp only [List.cons_append, addRoots, ih, bind_assoc, hlength]

/-- A run keeps what placing a top-level node and filling a class keep, and it ends with an empty
queue. -/
theorem addRoots_run {ix : IdIndex} {roots : List Node} {I : List Node → Draft → Prop}
    (place : ∀ done d position n h d', I done d → n ∈ roots →
      rootFor ix d position n = .ok (d', h) →
      I (done ++ [n]) { d' with model := d'.model.addRoot h })
    (fill : ∀ done d h n rest d', I done d → d.queue = (h, n) :: rest →
      fillMembers ix { d with queue := rest } h n = .ok d' → I done d')
    (done : List Node) {rest : List Node} {d d' : Draft} {position : Nat} (hI : I done d)
    (hq : d.queue = []) (hrest : rest ⊆ roots) (hd : addRoots ix d position rest = .ok d') :
    I (done ++ rest) d' ∧ d'.queue = [] := by
  induction rest generalizing d done position with
  | nil =>
    cases hd
    rw [List.append_nil]
    exact ⟨hI, hq⟩
  | cons n rest ih =>
    obtain ⟨⟨d₁, h⟩, h₁, hd⟩ := outcome_bind.mp hd
    obtain ⟨d₂, h₂, hd⟩ := outcome_bind.mp hd
    have hplaced := place done d position n h d₁ hI (hrest List.mem_cons_self) h₁
    obtain ⟨hI₂, hq₂⟩ := drain_run (fill (done ++ [n])) hplaced h₂
    have hlast := ih (done ++ [n]) hI₂ hq₂ (List.subset_of_cons_subset hrest) hd
    rwa [List.append_assoc] at hlast

theorem Lacks.takesPlace {n : Node} {d : Draft} (hl : d.Lacks (.node n)) :
    (Source.node n).TakesPlace d.model n := by
  have hnone : n.id?.bind d.model.lookup = none := by
    cases hid : n.id? with
    | none => rfl
    | some id => exact hl id hid
  rw [Source.TakesPlace, hnone]

/-- The key of a top-level association stays free while its ends are read. -/
theorem lacks_association {roots : List Node} {n : Node} {d d' : Draft} (hap : Node.Apart roots)
    (hn : n ∈ roots) (hk : n.kind? = some "uml:Association") (hl : d.Lacks (.node n))
    (hg : d.Grows (Source.Cited roots) d') : d'.Lacks (.node n) := by
  intro key hkey
  have hmem := Node.mem_preorderAll_of_mem hn
  cases hfound : d'.model.lookup key with
  | none => rfl
  | some a =>
    rcases hg.lookup_new hfound with hold | ⟨src, hc, hsrc⟩
    · rw [hl key hkey] at hold
      cases hold
    · obtain rfl := (hap.ownsId hmem).eq_node hkey hsrc (.inl hc)
      obtain ⟨htype, -⟩ := hc
      simp [TypeKind.ofNode?, hk, TypeKind.ofText?] at htype

namespace Traced

variable {roots : List Node} {placed : List (Node × Handle)} {srcs : List Source} {d d' : Draft}

theorem mono_placed {current : List Handle} {placed' : List (Node × Handle)}
    (ht : d.Traced roots placed current srcs) (hp : placed ⊆ placed') :
    d.Traced roots placed' current srcs where
  size := ht.size
  heads := ht.heads
  keyed := ht.keyed
  queued := ht.queued
  known h src hsrc := by
    rcases ht.known h src hsrc with hc | ⟨n, hn, he, hm⟩
    · exact .inl hc
    · exact .inr ⟨n, hn, he, hp hm⟩
  settled := ht.settled

theorem addRoot {current : List Handle} (ht : d.Traced roots placed current srcs) (h : Handle) :
    { d with model := d.model.addRoot h }.Traced roots placed current srcs where
  size := ht.size
  heads := ht.heads
  keyed := ht.keyed
  queued := ht.queued
  known := ht.known
  settled hap := by
    refine ⟨(ht.settled hap).registered, fun a n e hsrc he => ?_⟩
    have hkeeps : d.model.Keeps (d.model.addRoot h) :=
      ⟨Nat.le_refl _, fun _ _ h => h, fun _ _ => rfl⟩
    rcases (ht.settled hap).filled a n e hsrc he with hcur | hqueue | hmembers
    · exact .inl hcur
    · exact .inr (.inl hqueue)
    · exact .inr (.inr (hmembers.keeps hkeeps))

theorem heads_element {current : List Handle} (ht : d.Traced roots placed current srcs) {h : Handle}
    {src : Source} (hsrc : srcs[h]? = some src) : src.Heads (d.model.element h) := by
  have he := List.getElem?_eq_getElem (ht.lt_size hsrc)
  rw [Model.element, List.getD_eq_getElem?_getD, he]
  exact ht.heads h src _ hsrc he

/-- The element at the handle of a top-level node stands for the node. Its source is the node or
what has been registered under the identifier before. -/
theorem places {n : Node} {h : Handle} (ht : d.Traced roots placed [] srcs) (hn : n ∈ roots)
    (hp : Places (.ofRoots roots) n d d' h) :
    ∃ more, d'.Traced roots (placed ++ [(n, h)]) [] (srcs ++ more) ∧
      Source.StandsFor (srcs ++ more) n h ∧
      (∃ src, (srcs ++ more)[h]? = some src ∧ src.TakesPlace d.model n) ∧
      d'.model.roots = d.model.roots := by
  have hmono := ht.mono_placed (List.subset_append_left placed [(n, h)])
  have hnew : (Source.node n).Known roots (placed ++ [(n, h)]) h := .inr ⟨n, hn, rfl, by simp⟩
  cases hp with
  | known id found =>
    obtain ⟨src, hsrc, hkey⟩ := ht.keyed _ _ found
    have hplace : src.TakesPlace d.model n := by
      rw [Source.TakesPlace, id, Option.bind_some, found]
      exact ht.heads_element hsrc
    refine ⟨[], ?_, ⟨src, ?_, .inr ⟨_, id, hkey⟩⟩, ⟨src, ?_, hplace⟩, rfl⟩ <;>
      rwa [List.append_nil]
  | type isType lacks adds =>
    have hsrc : (srcs ++ [.node n])[d.model.size]? = some (.node n) :=
      getElem?_concat_eq_some.mpr (.inr ⟨ht.size.symm, rfl⟩)
    refine ⟨[.node n], hmono.adds adds hnew fun _ => ⟨lacks, ?_⟩, ⟨.node n, hsrc, .inl rfl⟩,
      ⟨.node n, hsrc, lacks.takesPlace⟩, adds.roots⟩
    rintro m e ⟨⟩ hm he
    exact Node.Declares.statesMembers (adds.heads he) isType hm
  | @association d₁ _ _ kind lacks ends adds element states =>
    have hg := ends.mono (Q := Source.Cited roots) fun src ⟨c, hc, hsrc⟩ =>
      hsrc.cited (Node.mem_preorderAll_of_mem hn) (List.mem_append_right _ hc)
    -- The types of the ends come first, so the association joins a draft that has grown.
    obtain ⟨more, ht₁⟩ := hmono.grows hg
    have hsrc : (srcs ++ (more ++ [.node n]))[d₁.model.size]? = some (.node n) := by
      rw [← List.append_assoc]
      exact getElem?_concat_eq_some.mpr (.inr ⟨ht₁.size.symm, rfl⟩)
    refine ⟨more ++ [.node n], ?_, ⟨.node n, hsrc, .inl rfl⟩, ⟨.node n, hsrc, lacks.takesPlace⟩,
      adds.roots.trans ends.roots⟩
    rw [← List.append_assoc]
    refine ht₁.adds adds hnew fun hap => ⟨lacks_association hap hn kind lacks hg, ?_⟩
    rintro m e ⟨⟩ - he
    cases element.symm.trans he
    exact states

theorem drain (ht : d.Traced roots placed [] srcs)
    (hd : Draft.drain (.ofRoots roots) d = .ok d') :
    (∃ more, d'.Traced roots placed [] (srcs ++ more) ∧ d'.model.roots = d.model.roots) ∧
      d'.queue = [] := by
  refine drain_run
    (I := fun d₁ => ∃ more, d₁.Traced roots placed [] (srcs ++ more) ∧
      d₁.model.roots = d.model.roots) ?_ ⟨[], by rwa [List.append_nil], rfl⟩ hd
  rintro d₁ h n rest d₂ ⟨more, ht₁, hr₁⟩ hq hf
  obtain ⟨more', ht₂, hr₂⟩ := ht₁.fill hq hf
  exact ⟨more ++ more', List.append_assoc srcs more more' ▸ ht₂, hr₂.trans hr₁⟩

end Traced

/-- A draft between two top-level nodes. -/
structure Rooted (roots : List Node) (placed : List (Node × Handle)) (srcs : List Source)
    (d : Draft) : Prop where
  traced : d.Traced roots placed [] srcs
  drained : d.queue = []
  handles : d.model.roots = placed.map Prod.snd
  tops : ∀ p ∈ placed, Source.StandsFor srcs p.1 p.2
  reads : addRoots (.ofRoots roots) {} 0 (placed.map Prod.fst) = .ok d
  /-- The place of each node was decided by the class model of the nodes before it. -/
  decided : ∀ before p after, placed = before ++ p :: after →
    ∃ m src, Model.ofNodes (.ofRoots roots) (before.map Prod.fst) = .ok m ∧
      srcs[p.2]? = some src ∧ src.TakesPlace m p.1

theorem Traced.start (roots : List Node) : ({} : Draft).Traced roots [] [] [] where
  size := rfl
  heads _ _ _ hsrc := by cases hsrc
  keyed _ _ hl := by cases hl
  queued _ _ hq := by cases hq
  known _ _ hsrc := by cases hsrc
  settled _ := {
    registered := fun _ _ _ hsrc _ => by cases hsrc
    filled := fun _ _ _ hsrc _ => by cases hsrc }

theorem Rooted.start (roots : List Node) : ({} : Draft).Rooted roots [] [] where
  traced := Traced.start roots
  drained := rfl
  handles := rfl
  tops := fun _ hp => by cases hp
  reads := rfl
  decided := fun before _ _ h => by cases before <;> cases h

theorem Rooted.step {roots : List Node} {placed : List (Node × Handle)} {srcs : List Source}
    {d d₁ d₂ : Draft} {n : Node} {h : Handle} (hr : d.Rooted roots placed srcs) (hn : n ∈ roots)
    (h₁ : rootFor (.ofRoots roots) d placed.length n = .ok (d₁, h))
    (h₂ : drain (.ofRoots roots) { d₁ with model := d₁.model.addRoot h } = .ok d₂) :
    ∃ srcs', d₂.Rooted roots (placed ++ [(n, h)]) srcs' := by
  obtain ⟨more, ht, hs, hplace, hroots⟩ :=
    hr.traced.places hn (rootFor_places hr.traced.bounded h₁)
  obtain ⟨⟨more', ht', hroots'⟩, hq⟩ := (ht.addRoot h).drain h₂
  refine ⟨srcs ++ more ++ more', ht', hq, ?_, fun p hp => ?_, ?_, fun before p after he => ?_⟩
  · rw [hroots', Model.addRoot, hroots, hr.handles, List.map_append, List.map_singleton]
  · rcases List.mem_append.mp hp with hp | hp
    · exact (hr.tops p hp).append.append
    · obtain rfl := List.mem_singleton.mp hp
      exact hs.append
  · have hlength : 0 + (placed.map Prod.fst).length = placed.length := by simp
    rw [List.map_append, List.map_singleton, addRoots_append, hr.reads, hlength]
    exact outcome_bind.mpr ⟨d, rfl, outcome_bind.mpr ⟨(d₁, h), h₁, outcome_bind.mpr ⟨d₂, h₂, rfl⟩⟩⟩
  · rcases List.eq_nil_or_concat after with rfl | ⟨after, last, rfl⟩
    · obtain ⟨rfl, hlast⟩ := List.append_inj' he rfl
      obtain rfl := List.singleton_inj.mp hlast
      obtain ⟨src, hsrc, htakes⟩ := hplace
      exact ⟨d.model, src, Model.ofNodes_eq_ok.mpr ⟨d, hr.reads, rfl⟩,
        getElem?_append_of_eq_some hsrc, htakes⟩
    · rw [List.concat_eq_append, ← List.cons_append, ← List.append_assoc] at he
      obtain ⟨hplaced, -⟩ := List.append_inj' he rfl
      obtain ⟨m, src, hm, hsrc, htakes⟩ := hr.decided before p after hplaced
      exact ⟨m, src, hm, getElem?_append_of_eq_some (getElem?_append_of_eq_some hsrc), htakes⟩

theorem Rooted.run {roots : List Node} {rest : List Node} {placed : List (Node × Handle)}
    {srcs : List Source} {d d' : Draft} (hr : d.Rooted roots placed srcs) (hrest : rest ⊆ roots)
    (hd : addRoots (.ofRoots roots) d placed.length rest = .ok d') :
    ∃ placed' srcs', d'.Rooted roots placed' srcs' ∧
      placed'.map Prod.fst = placed.map Prod.fst ++ rest := by
  induction rest generalizing d placed srcs with
  | nil =>
    cases hd
    exact ⟨placed, srcs, hr, (List.append_nil _).symm⟩
  | cons n rest ih =>
    obtain ⟨⟨d₁, h⟩, h₁, hd⟩ := outcome_bind.mp hd
    obtain ⟨d₂, h₂, hd⟩ := outcome_bind.mp hd
    obtain ⟨srcs₂, hr₂⟩ := hr.step (hrest List.mem_cons_self) h₁ h₂
    obtain ⟨placed', srcs', hr', hp⟩ := ih hr₂ (List.subset_of_cons_subset hrest)
      (by rwa [List.length_append, List.length_singleton])
    refine ⟨placed', srcs', hr', ?_⟩
    rw [hp, List.map_append, List.map_singleton, List.append_assoc, List.singleton_append]

/-- The draft at the end of a run has placed all top-level nodes, in their order. -/
theorem rooted_of_ofNodes {roots : List Node} {m : Model}
    (h : Model.ofNodes (.ofRoots roots) roots = .ok m) :
    ∃ d : Draft, d.model = m ∧ ∃ placed srcs, d.Rooted roots placed srcs ∧
      placed.map Prod.fst = roots := by
  obtain ⟨d, hd, hm⟩ := Model.ofNodes_eq_ok.mp h
  obtain ⟨placed, srcs, hr, hp⟩ := (Rooted.start roots).run (List.Subset.refl roots) hd
  exact ⟨d, hm, placed, srcs, hr, hp⟩

end Draft
end ClassGrammar
