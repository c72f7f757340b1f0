import ClassGrammar.Proofs.Models.HandleRange

/-! Where a class model comes from when identifiers may be shared. A later element can then take
over the key of an earlier one, so the type of a property is known by the source of its element,
which has the key that the property states. A reference of a library type has at most one element.
-/
namespace ClassGrammar

theorem Source.Heads.getD_name {src : Source} {e : Element} (h : src.Heads e) :
    src.name?.getD "" = e.name := by
  cases src with
  | node n =>
    rcases Node.Declares.name h with hname | ⟨-, hnone, hname⟩
    · simp [Source.name?, hname]
    · simp [Source.name?, hnone, hname]
  | library href kind =>
    cases h
    rfl

namespace Node

/-- What a property has from its node, given the sources of the elements. -/
structure Draws (srcs : List Source) (owner : Option Handle) (c : Node) (p : Property) : Prop where
  id : p.id = c.id?
  type : ∃ key src, c.typeKey? = some key ∧ srcs[p.type]? = some src ∧ src.key? = some key ∧
    p.name = c.name?.getD (Text.lowerFirst (src.name?.getD ""))
  visibility : p.visibility = .ofText (c.attr? "visibility")
  multiplicity : readMultiplicity c p.name = .ok p.multiplicity
  aggregation : p.aggregation = .ofText (c.attr? "aggregation")
  association : p.association = owner

theorem Draws.append {srcs : List Source} {owner : Option Handle} {c : Node} {p : Property}
    (h : c.Draws srcs owner p) (more : List Source) : c.Draws (srcs ++ more) owner p where
  id := h.id
  type := by
    obtain ⟨key, src, hkey, hsrc, hrest⟩ := h.type
    exact ⟨key, src, hkey, getElem?_append_of_eq_some hsrc, hrest⟩
  visibility := h.visibility
  multiplicity := h.multiplicity
  aggregation := h.aggregation
  association := h.association

theorem propertyNodes_of_isType {n : Node} (ht : (TypeKind.ofNode? n).isSome)
    (hc : n.isClass = false) : n.propertyNodes = [] := by
  have ha : n.isAssociation = false := by
    cases ha : n.isAssociation with
    | false => rfl
    | true => simp [ofNode?_of_isAssociation ha] at ht
  simp [propertyNodes, hc, ha]

/-- The properties of an element, among the members that its node states. -/
theorem StatesMembers.properties {m : Model} {h : Handle} {n : Node} {e : Element}
    (hs : n.StatesMembers m h e) (ha : n.isAssociation = true) (hd : n.Declares e) :
    List.Forall₂ (StatesProperty m (e.form.owner? h)) n.propertyNodes e.properties := by
  have hk : n.kind? = some "uml:Association" := by simpa [isAssociation] using ha
  have hkind := Option.some.inj (hd.kind.symm.trans hk)
  rw [propertyNodes_of_isAssociation ha]
  cases hf : e.form with
  | association first second tokens =>
    simp only [StatesMembers, hf] at hs
    simpa only [Element.properties, hf, Form.owner?] using hs.1
  | classifier isInterface _ _ => cases isInterface <;> simp [hf, Form.kindText] at hkind
  | _ => simp [hf, Form.kindText] at hkind

end Node

namespace Source

/-- Whether a source is that of a library type which some property of a node is of, with the kind
that is stated there, or the source of a node. -/
def LibraryOf (n : Node) : Source → Prop
  | node _ => True
  | library href kind => ∃ c ∈ n.propertyNodes, c.libraryType? = some (href, some kind.text)

/-- Whether every library type among some sources is that of a property of a node among them. -/
def LibrariesUsed (srcs : List Source) : Prop :=
  ∀ href kind, library href kind ∈ srcs →
    ∃ n, node n ∈ srcs ∧ (library href kind).LibraryOf n

theorem LibrariesUsed.append {srcs more : List Source} {n : Node} (hu : LibrariesUsed srcs)
    (hn : node n ∈ srcs ++ more) (hmore : ∀ src ∈ more, src.LibraryOf n) :
    LibrariesUsed (srcs ++ more) := by
  intro href kind hmem
  rcases List.mem_append.mp hmem with hmem | hmem
  · obtain ⟨n', hn', hof⟩ := hu href kind hmem
    exact ⟨n', List.mem_append_left _ hn', hof⟩
  · exact ⟨n, hn, hmore _ hmem⟩

end Source

namespace Node

variable {ix : IdIndex} {n c : Node} {src : Source}

theorem TypedBy.libraryOf (hc : c ∈ n.propertyNodes) (h : c.TypedBy ix src) : src.LibraryOf n := by
  cases h with
  | node _ _ _ => trivial
  | library key child isType =>
    have htype := libraryType?_eq_some key child
    rw [TypeKind.bind_ofText?_eq_some.mp isType] at htype
    exact ⟨c, hc, htype⟩

theorem Cites.libraryOf (hn : n.isClass = true) (h : n.Cites ix src) : src.LibraryOf n := by
  rcases h with ⟨c, hc, htyped⟩ | ⟨c, -, hspec⟩
  · rw [← propertyNodes_of_isClass hn] at hc
    exact htyped.libraryOf hc
  · cases hspec with
    | node _ _ _ => trivial

end Node

namespace Draft

theorem Traced.draws {roots : List Node} {placed : List (Node × Handle)} {current : List Handle}
    {srcs : List Source} {d : Draft} (ht : d.Traced roots placed current srcs)
    {owner : Option Handle} {c : Node} {p : Property} (hs : c.StatesProperty d.model owner p) :
    c.Draws srcs owner p where
  id := hs.id
  type := by
    obtain ⟨key, hkey, hl⟩ := hs.type
    obtain ⟨src, hsrc, hsame⟩ := ht.keyed key p.type hl
    have he := List.getElem?_eq_getElem (ht.lt_size hsrc)
    have hname := (ht.heads p.type src _ hsrc he).getD_name
    refine ⟨key, src, hkey, hsrc, hsame, ?_⟩
    rw [hs.name, hname, Model.element_of_getElem? he]
  visibility := hs.visibility
  multiplicity := hs.multiplicity
  aggregation := hs.aggregation
  association := hs.association

/-- What is known of a draft with its sources: a node whose handle neither is current nor waits in
the queue has its properties read, and no reference has two library types. -/
structure Sourced (roots : List Node) (placed : List (Node × Handle)) (current : List Handle)
    (srcs : List Source) (d : Draft) : Prop where
  traced : d.Traced roots placed current srcs
  drawn : ∀ h n e, srcs[h]? = some (.node n) → d.model.elements[h]? = some e →
    h ∈ current ∨ h ∈ d.queue.map Prod.fst ∨
      List.Forall₂ (Node.Draws srcs (e.form.owner? h)) n.propertyNodes e.properties
  registered : ∀ href kind, .library href kind ∈ srcs → (d.model.lookup href).isSome
  once : ∀ (h h' : Handle) href kind kind', srcs[h]? = some (.library href kind) →
    srcs[h']? = some (.library href kind') → h = h'

namespace Sourced

variable {roots : List Node} {placed : List (Node × Handle)} {current : List Handle}
  {srcs : List Source} {d d' : Draft}

theorem start (roots : List Node) : ({} : Draft).Sourced roots [] [] [] where
  traced := Traced.start roots
  drawn _ _ _ hsrc := by cases hsrc
  registered _ _ hmem := by cases hmem
  once _ _ _ _ _ hsrc := by cases hsrc

theorem adds {src : Source} (hs : d.Sourced roots placed current srcs) (ha : d.Adds src d')
    (ht : d'.Traced roots placed current (srcs ++ [src]))
    (hnew : ∀ href kind, src = .library href kind → d.model.lookup href = none)
    (hd : ∀ n e, src = .node n → n.isClass = false →
      d'.model.elements[d.model.size]? = some e →
      List.Forall₂ (Node.Draws srcs (e.form.owner? d.model.size)) n.propertyNodes e.properties) :
    d'.Sourced roots placed current (srcs ++ [src]) where
  traced := ht
  drawn h n e hsrc he := by
    rw [ha.queue, List.map_append]
    rcases getElem?_concat_eq_some.mp hsrc with hsrc | ⟨rfl, rfl⟩
    · rw [ha.getElem? (hs.traced.lt_size hsrc)] at he
      rcases hs.drawn h n e hsrc he with hcur | hqueue | hdraws
      · exact .inl hcur
      · exact .inr (.inl (List.mem_append_left _ hqueue))
      · exact .inr (.inr (hdraws.imp fun _ _ hp => hp.append _))
    · rw [hs.traced.size] at he ⊢
      cases hn : n.isClass with
      | true => exact .inr (.inl (by simp [Source.openings, hn]))
      | false => exact .inr (.inr ((hd n e rfl hn he).imp fun _ _ hp => hp.append _))
  registered href kind hmem := by
    rw [ha.lookup]
    rcases List.mem_append.mp hmem with hmem | hmem
    · split
      · rfl
      · exact hs.registered href kind hmem
    · obtain rfl := List.mem_singleton.mp hmem
      have hkey : (Source.library href kind).key? = some href := rfl
      rw [if_pos hkey]
      rfl
  once h h' href kind kind' hsrc hsrc' := by
    -- The reference of a new library type is not that of a type which is there.
    have hclash {kind kind' : TypeKind} (hold : .library href kind ∈ srcs)
        (he : src = .library href kind') : False := by
      have hl := hs.registered href kind hold
      rw [hnew href kind' he] at hl
      cases hl
    rcases getElem?_concat_eq_some.mp hsrc with hsrc | ⟨rfl, he⟩ <;>
      rcases getElem?_concat_eq_some.mp hsrc' with hsrc' | ⟨rfl, he'⟩
    · exact hs.once h h' href kind kind' hsrc hsrc'
    · exact (hclash (List.mem_of_getElem? hsrc) he').elim
    · exact (hclash (List.mem_of_getElem? hsrc') he).elim
    · rfl

/-- A type that is not a class is complete when it is added. -/
theorem addsType {src : Source} (hs : d.Sourced roots placed current srcs) (ha : d.Adds src d')
    (hl : d.Lacks src) (ht : src.IsType) (hk : src.Known roots placed d.model.size) :
    d'.Sourced roots placed current (srcs ++ [src]) := by
  refine hs.adds ha (hs.traced.adds ha hk fun _ => ⟨hl, ?_⟩) ?_ ?_
  · rintro n e rfl hn he
    exact Node.Declares.statesMembers (ha.heads he) ht hn
  · rintro href kind rfl
    exact hl href rfl
  · rintro n e rfl hn he
    rw [Node.propertyNodes_of_isType ht hn, (ha.bare ht e he).1]
    exact .nil

theorem grows {P : Source → Prop} (hs : d.Sourced roots placed current srcs)
    (hg : d.Grows P d') (hp : ∀ src, P src → src.Cited roots ∧ src.IsType) :
    ∃ more, d'.Sourced roots placed current (srcs ++ more) ∧ ∀ src ∈ more, P src := by
  induction hg with
  | refl => exact ⟨[], by rwa [List.append_nil], by simp⟩
  | tail _ hstep ih =>
    obtain ⟨more, hs, hmore⟩ := ih
    obtain ⟨src, hsrc, hl, ha⟩ := hstep
    obtain ⟨hcited, htype⟩ := hp src hsrc
    refine ⟨more ++ [src], ?_, ?_⟩
    · rw [← List.append_assoc]
      exact hs.addsType ha hl htype (.inl hcited)
    · intro src' hmem
      rcases List.mem_append.mp hmem with hmem | hmem
      · exact hmore src' hmem
      · exact List.mem_singleton.mp hmem ▸ hsrc

theorem pop {h : Handle} {n : Node} {rest : List (Handle × Node)}
    (hs : d.Sourced roots placed [] srcs) (hq : d.queue = (h, n) :: rest) :
    { d with queue := rest }.Sourced roots placed [h] srcs where
  traced := hs.traced.pop hq
  drawn k m e hsrc he := by
    rcases hs.drawn k m e hsrc he with hcur | hqueue | hdraws
    · cases hcur
    · rw [hq, List.map_cons] at hqueue
      rcases List.mem_cons.mp hqueue with rfl | hqueue
      · exact .inl List.mem_cons_self
      · exact .inr (.inl hqueue)
    · exact .inr (.inr hdraws)
  registered := hs.registered
  once := hs.once

theorem setMembers {h : Handle} {n : Node} {attributes : List Property}
    {gs : List Generalization} (hs : d.Sourced roots placed [h] srcs)
    (hsrc : srcs[h]? = some (.node n)) (hc : n.isClass = true)
    (has : List.Forall₂ (Node.StatesProperty d.model none) (n.children "ownedAttribute") attributes)
    (hgs : List.Forall₂ (Node.StatesGeneralization d.model) (n.children "generalization") gs) :
    { d with model := d.model.setMembers h attributes gs }.Sourced roots placed [] srcs where
  traced := hs.traced.setMembers hsrc hc has hgs
  drawn k m e hk he := by
    rw [Model.getElem?_setMembers] at he
    obtain ⟨e₀, he₀, rfl⟩ := Option.map_eq_some_iff.mp he
    by_cases heq : h = k
    · subst heq
      obtain rfl : n = m := by cases hsrc.symm.trans hk; rfl
      have hhead : n.Declares e₀ := hs.traced.heads h (.node n) e₀ hk he₀
      obtain ⟨isInterface, _, _, hf⟩ := hhead.classifier hc
      rw [if_pos rfl, Node.propertyNodes_of_isClass hc]
      simp only [Element.withMembers, hf, Element.properties, Form.owner?]
      exact .inr (.inr (has.imp fun _ _ => hs.traced.draws))
    · rw [if_neg heq]
      rcases hs.drawn k m e₀ hk he₀ with hcur | hqueue | hdraws
      · exact absurd (List.mem_singleton.mp hcur).symm heq
      · exact .inr (.inl hqueue)
      · exact .inr (.inr hdraws)
  registered := hs.registered
  once := hs.once

theorem fill {h : Handle} {n : Node} {rest : List (Handle × Node)}
    (hs : d.Sourced roots placed [] srcs) (hq : d.queue = (h, n) :: rest)
    (hf : fillMembers (.ofRoots roots) { d with queue := rest } h n = .ok d') :
    ∃ more, d'.Sourced roots placed [] (srcs ++ more) ∧ d'.model.roots = d.model.roots ∧
      .node n ∈ srcs ∧ ∀ src ∈ more, src.LibraryOf n := by
  obtain ⟨hsrc, hc⟩ := hs.traced.queued h n (by rw [hq]; exact List.mem_cons_self)
  have hopen := hs.pop hq
  have hn := (hs.traced.known h _ hsrc).reached.mem
  obtain ⟨d₁, attributes, gs, hg, has, hgs, rfl⟩ := fillMembers_spec hopen.traced.bounded hf
  obtain ⟨more, hs₁, hmore⟩ := hopen.grows hg fun _ hsrc => ⟨hsrc.cited hn, hsrc.isType⟩
  exact ⟨more, hs₁.setMembers (getElem?_append_of_eq_some hsrc) hc has hgs, hg.roots,
    List.mem_of_getElem? hsrc, fun src hmem => (hmore src hmem).libraryOf hc⟩

theorem mono_placed {placed' : List (Node × Handle)} (hs : d.Sourced roots placed current srcs)
    (hp : placed ⊆ placed') : d.Sourced roots placed' current srcs :=
  ⟨hs.traced.mono_placed hp, hs.drawn, hs.registered, hs.once⟩

theorem addRoot (hs : d.Sourced roots placed current srcs) (h : Handle) :
    { d with model := d.model.addRoot h }.Sourced roots placed current srcs :=
  ⟨hs.traced.addRoot h, hs.drawn, hs.registered, hs.once⟩

/-- The ends of an association have been read when it is added. -/
theorem addsAssociation {n : Node} {e : Element} (hs : d.Sourced roots placed current srcs)
    (ha : d.Adds (.node n) d') (ht : d'.Traced roots placed current (srcs ++ [.node n]))
    (hn : n.isAssociation = true) (he : d'.model.elements[d.model.size]? = some e)
    (hm : n.StatesMembers d.model d.model.size e) :
    d'.Sourced roots placed current (srcs ++ [.node n]) := by
  refine hs.adds ha ht (fun _ _ hlibrary => by cases hlibrary) ?_
  rintro m e' ⟨⟩ - he'
  obtain rfl : e = e' := Option.some.inj (he.symm.trans he')
  exact (hm.properties hn (ha.heads he)).imp fun _ _ => hs.traced.draws

theorem place {position : Nat} {n : Node} {h : Handle} (hs : d.Sourced roots placed [] srcs)
    (hn : n ∈ roots) (hr : rootFor (.ofRoots roots) d position n = .ok (d', h)) :
    ∃ more, d'.Sourced roots (placed ++ [(n, h)]) [] (srcs ++ more) ∧
      Source.StandsFor (srcs ++ more) n h ∧ d'.model.roots = d.model.roots ∧
      (more = [] ∨ .node n ∈ more ∧ ∀ src ∈ more, src.LibraryOf n) := by
  have hmem := Node.mem_preorderAll_of_mem hn
  have hmono := hs.mono_placed (List.subset_append_left placed [(n, h)])
  have hnew : (Source.node n).Known roots (placed ++ [(n, h)]) h := .inr ⟨n, hn, rfl, by simp⟩
  cases rootFor_places hs.traced.bounded hr with
  | known id found =>
    obtain ⟨src, hsrc, hkey⟩ := hs.traced.keyed _ _ found
    refine ⟨[], ?_, ⟨src, ?_, .inr ⟨_, id, hkey⟩⟩, rfl, .inl rfl⟩ <;> rwa [List.append_nil]
  | type isType lacks adds =>
    refine ⟨[.node n], hmono.addsType adds lacks isType hnew, ⟨.node n, ?_, .inl rfl⟩, adds.roots,
      .inr ⟨by simp, by simp [Source.LibraryOf]⟩⟩
    exact getElem?_concat_eq_some.mpr (.inr ⟨hs.traced.size.symm, rfl⟩)
  | @association d₁ _ e kind lacks ends adds element states =>
    have ha : n.isAssociation = true := by simpa [Node.isAssociation] using kind
    have hcited (src : Source) (h : ∃ c ∈ n.children "ownedEnd", c.TypedBy (.ofRoots roots) src) :
        src.Cited roots ∧ src.IsType := by
      obtain ⟨c, hc, htyped⟩ := h
      exact ⟨htyped.cited hmem (List.mem_append_right _ hc), htyped.isType⟩
    obtain ⟨more, hs₁, hmore⟩ := hmono.grows ends hcited
    have ht : d'.Traced roots (placed ++ [(n, d₁.model.size)]) [] (srcs ++ more ++ [.node n]) := by
      refine hs₁.traced.adds adds hnew fun hap => ⟨?_, ?_⟩
      · exact lacks_association hap hn kind lacks (ends.mono fun src h => (hcited src h).1)
      · rintro m e' ⟨⟩ - he'
        cases element.symm.trans he'
        exact states
    have hs₂ := hs₁.addsAssociation adds ht ha element states
    rw [List.append_assoc] at hs₂
    refine ⟨more ++ [.node n], hs₂, ⟨.node n, ?_, .inl rfl⟩, adds.roots.trans ends.roots,
      .inr ⟨by simp, fun src hsrc => ?_⟩⟩
    · rw [← List.append_assoc]
      exact getElem?_concat_eq_some.mpr (.inr ⟨hs₁.traced.size.symm, rfl⟩)
    · rcases List.mem_append.mp hsrc with hsrc | hsrc
      · obtain ⟨c, hc, htyped⟩ := hmore src hsrc
        rw [← Node.propertyNodes_of_isAssociation ha] at hc
        exact htyped.libraryOf hc
      · obtain rfl := List.mem_singleton.mp hsrc
        trivial

end Sourced
end Draft

/-- A model that has been read from top-level nodes, with the sources of its elements. Identifiers
may be shared. -/
structure Model.ReadWith (roots : List Node) (srcs : List Source) (m : Model) : Prop where
  heads : List.Forall₂ Source.Heads srcs m.elements
  nodes : ∀ n, .node n ∈ srcs → n ∈ Node.preorderAll roots
  tops : List.Forall₂ (Source.StandsFor srcs) roots m.roots
  properties : ∀ (h : Handle) n, srcs[h]? = some (.node n) →
    List.Forall₂ (Node.Draws srcs ((m.element h).form.owner? h)) n.propertyNodes
      (m.element h).properties
  keyed : ∀ key h, m.lookup key = some h → ∃ src, srcs[h]? = some src ∧ src.key? = some key
  registered : ∀ href kind, .library href kind ∈ srcs → (m.lookup href).isSome
  used : Source.LibrariesUsed srcs
  once : ∀ (h h' : Handle) href kind kind', srcs[h]? = some (.library href kind) →
    srcs[h']? = some (.library href kind') → h = h'

/-- What holds between two top-level nodes. -/
structure Draft.SourcedRoots (roots done : List Node) (placed : List (Node × Handle))
    (srcs : List Source) (d : Draft) : Prop where
  sourced : d.Sourced roots placed [] srcs
  nodes : placed.map Prod.fst = done
  handles : d.model.roots = placed.map Prod.snd
  tops : ∀ p ∈ placed, Source.StandsFor srcs p.1 p.2
  used : Source.LibrariesUsed srcs

namespace Draft.SourcedRoots

variable {roots done : List Node} {placed : List (Node × Handle)} {srcs : List Source}
  {d d' : Draft}

theorem place {position : Nat} {n : Node} {h : Handle} (hs : d.SourcedRoots roots done placed srcs)
    (hn : n ∈ roots) (hr : rootFor (.ofRoots roots) d position n = .ok (d', h)) :
    ∃ srcs', { d' with model := d'.model.addRoot h }.SourcedRoots roots (done ++ [n])
      (placed ++ [(n, h)]) srcs' := by
  obtain ⟨more, hs', hstands, hroots, hmore⟩ := hs.sourced.place hn hr
  refine ⟨srcs ++ more, hs'.addRoot h, ?_, ?_, ?_, ?_⟩
  · rw [List.map_append, hs.nodes, List.map_singleton]
  · show d'.model.roots ++ [h] = (placed ++ [(n, h)]).map Prod.snd
    rw [hroots, hs.handles, List.map_append, List.map_singleton]
  · intro p hp
    rcases List.mem_append.mp hp with hp | hp
    · exact (hs.tops p hp).append
    · obtain rfl := List.mem_singleton.mp hp
      exact hstands
  · rcases hmore with rfl | ⟨hnode, hlibraries⟩
    · rw [List.append_nil]
      exact hs.used
    · exact hs.used.append (List.mem_append_right _ hnode) hlibraries

theorem fill {h : Handle} {n : Node} {rest : List (Handle × Node)}
    (hs : d.SourcedRoots roots done placed srcs) (hq : d.queue = (h, n) :: rest)
    (hf : fillMembers (.ofRoots roots) { d with queue := rest } h n = .ok d') :
    ∃ srcs', d'.SourcedRoots roots done placed srcs' := by
  obtain ⟨more, hs', hroots, hnode, hlibraries⟩ := hs.sourced.fill hq hf
  exact ⟨srcs ++ more, hs', hs.nodes, hroots.trans hs.handles,
    fun p hp => (hs.tops p hp).append, hs.used.append (List.mem_append_left _ hnode) hlibraries⟩

/-- At the end nothing waits, so all properties have been read. -/
theorem readWith (hs : d.SourcedRoots roots roots placed srcs) (hq : d.queue = []) :
    d.model.ReadWith roots srcs where
  heads := by
    refine List.forall₂_iff_get.mpr ⟨hs.sourced.traced.size, fun h hsrc he => ?_⟩
    exact hs.sourced.traced.heads h _ _ (List.getElem?_eq_getElem hsrc)
      (List.getElem?_eq_getElem he)
  nodes n hn := by
    obtain ⟨h, hsrc⟩ := List.getElem?_of_mem hn
    exact (hs.sourced.traced.known h _ hsrc).reached.mem
  tops := by
    have hpairs : List.Forall₂ (Source.StandsFor srcs) (placed.map Prod.fst)
        (placed.map Prod.snd) := by
      rw [List.forall₂_map_left_iff, List.forall₂_map_right_iff, List.forall₂_same]
      exact hs.tops
    rwa [hs.nodes, ← hs.handles] at hpairs
  properties h n hsrc := by
    have he := List.getElem?_eq_getElem (hs.sourced.traced.lt_size hsrc)
    rw [Model.element_of_getElem? he]
    rcases hs.sourced.drawn h n _ hsrc he with hcur | hqueue | hdraws
    · cases hcur
    · rw [hq] at hqueue
      cases hqueue
    · exact hdraws
  keyed := hs.sourced.traced.keyed
  registered := hs.sourced.registered
  used := hs.used
  once := hs.sourced.once

end Draft.SourcedRoots

/-- Every model that can be read has sources, whatever the identifiers of the nodes are. -/
theorem Model.exists_readWith {roots : List Node} {m : Model}
    (h : Model.ofNodes (.ofRoots roots) roots = .ok m) : ∃ srcs, m.ReadWith roots srcs := by
  obtain ⟨d, hd, rfl⟩ := Model.ofNodes_eq_ok.mp h
  obtain ⟨⟨placed, srcs, hs⟩, hq⟩ := Draft.addRoots_run
    (I := fun done d => ∃ placed srcs, d.SourcedRoots roots done placed srcs)
    (fun _ _ _ n h _ ⟨placed, srcs, hs⟩ hn hr => by
      obtain ⟨srcs', hs'⟩ := hs.place hn hr
      exact ⟨placed ++ [(n, h)], srcs', hs'⟩)
    (fun _ _ _ _ _ _ ⟨placed, srcs, hs⟩ hq hf => by
      obtain ⟨srcs', hs'⟩ := hs.fill hq hf
      exact ⟨placed, srcs', hs'⟩)
    [] ⟨[], [], Draft.Sourced.start roots, rfl, rfl, by simp, by intro _ _ hmem; cases hmem⟩ rfl
    (List.Subset.refl roots) hd
  exact ⟨srcs, hs.readWith hq⟩

end ClassGrammar
